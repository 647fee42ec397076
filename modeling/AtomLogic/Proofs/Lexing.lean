import AtomLogic.Text.Token

/-! What one cut of the lexer yields, by the character that it meets first, and what every
token of a text is like: a name in it is a name that can be written. -/

namespace AtomLogic.Text

theorem isNameChar_iff (c : Char) :
    isNameChar c = true ↔ isBlank c = false ∧ c ≠ '(' ∧ c ≠ ')' ∧ c ≠ ';' := by
  simp [isNameChar,isDelimiter,and_assoc]

/-- A name can be written: it is not empty, and none of its characters is a blank, a
parenthesis or a semicolon. -/
def isName (name : String) : Bool :=
  !name.toList.isEmpty &&
    name.toList.all fun c => !isBlank c && c != '(' && c != ')' && c != ';'

theorem isName_iff (name : String) :
    isName name = true ↔ name.toList ≠ [] ∧ ∀ c ∈ name.toList, isNameChar c = true := by
  simp [isName,isNameChar_iff,and_assoc]

/-- A symbol can be written if its name can, and does not look like a variable. -/
def isSymbolName (name : String) : Bool := isName name && name.toList.head? != some '$'

theorem isSymbolName_iff (name : String) :
    isSymbolName name = true ↔ isName name = true ∧ name.toList.head? ≠ some '$' := by
  simp [isSymbolName]

def Token.isWritten : Token → Bool
  | .sym name => isSymbolName name
  | .var name => isName name
  | _ => true

/-- The characters end a name that stands in front of them. -/
def Ends (rest : List Char) : Prop := ∀ c ∈ rest.head?, isNameChar c = false

theorem ends_nil : Ends [] := nofun

theorem ends_cons {c : Char} (delimiter : isNameChar c = false) (rest : List Char) :
    Ends (c :: rest) := by
  intro first same
  rwa [← Option.some.inj same]

theorem ends_dropWhile (text : List Char) : Ends (text.dropWhile isNameChar) := by
  intro c first
  have stopped := List.head?_dropWhile_not isNameChar text
  rw [first] at stopped
  simpa using stopped

theorem Ends.append {first second : List Char} (front : Ends first) (back : Ends second) :
    Ends (first ++ second) := by
  cases first with
  | nil => exact back
  | cons c first => exact ends_cons (front c rfl) _

theorem isNameChar_of_blank {c : Char} (blank : isBlank c = true) : isNameChar c = false := by
  simp [isNameChar,isDelimiter,blank]

namespace Cursor

theorem skipBlanks_of_blank {c : Char} (blank : isBlank c = true) (rest : List Char)
    (position : Position) :
    skipBlanks (c :: rest) position = skipBlanks rest (position.after c) := by
  rw [skipBlanks,if_pos blank]

theorem skipBlanks_of_solid {c : Char} (solid : isBlank c = false) (code : c ≠ ';')
    (rest : List Char) (position : Position) :
    skipBlanks (c :: rest) position = ⟨c :: rest,position⟩ := by
  rw [skipBlanks,if_neg (Bool.eq_false_iff.mp solid),if_neg code]

theorem takeName_append {name rest : List Char} (chars : ∀ c ∈ name, isNameChar c = true)
    (ends : Ends rest) (position : Position) :
    takeName (name ++ rest) position = (String.ofList name,⟨rest,position.afterAll name⟩) := by
  have taken : rest.takeWhile isNameChar = [] := by
    cases rest with
    | nil => rfl
    | cons c rest => rw [List.takeWhile_cons_of_neg (Bool.eq_false_iff.mp (ends c rfl))]
  have dropped : rest.dropWhile isNameChar = rest := by
    cases rest with
    | nil => rfl
    | cons c rest => rw [List.dropWhile_cons_of_neg (Bool.eq_false_iff.mp (ends c rfl))]
  rw [takeName,List.takeWhile_append_of_pos chars,List.dropWhile_append_of_pos chars,taken,dropped,
    List.append_nil]

/-! ### One cut -/

theorem next_blank {c : Char} (blank : isBlank c = true) (rest : List Char) (position : Position) :
    next ⟨c :: rest,position⟩ = next ⟨rest,position.after c⟩ := by
  rw [next,next,skipBlanks_of_blank blank]

theorem next_skipBlanks (cursor : Cursor) :
    next (skipBlanks cursor.rest cursor.position) = cursor.next := by
  have still : skipBlanks (skipBlanks cursor.rest cursor.position).rest
      (skipBlanks cursor.rest cursor.position).position =
        skipBlanks cursor.rest cursor.position := by
    have head := @skipBlanks_head cursor.rest cursor.position
    generalize skipBlanks cursor.rest cursor.position = ready at head ⊢
    obtain ⟨rest,position⟩ := ready
    cases rest with
    | nil => rw [skipBlanks]
    | cons c rest => exact skipBlanks_of_solid (head rfl).1 (head rfl).2 rest position
  rw [next,next,still]

theorem next_comment (rest : List Char) (position : Position) :
    next ⟨';' :: rest,position⟩ = next (skipComment rest (position.after ';')) := by
  rw [← next_skipBlanks (skipComment rest (position.after ';')),← next_skipBlanks ⟨';' :: rest,_⟩,
    skipBlanks,if_neg (by decide),if_pos rfl]

theorem next_nil (position : Position) :
    next ⟨[],position⟩ = (.ok ⟨.finish,position⟩,⟨[],position⟩) := by
  rw [next,skipBlanks]

theorem next_opening (rest : List Char) (position : Position) :
    next ⟨'(' :: rest,position⟩ = (.ok ⟨.opening,position⟩,⟨rest,position.after '('⟩) := by
  rw [next,skipBlanks_of_solid (by decide) (by decide)]
  rfl

theorem next_closing (rest : List Char) (position : Position) :
    next ⟨')' :: rest,position⟩ = (.ok ⟨.closing,position⟩,⟨rest,position.after ')'⟩) := by
  rw [next,skipBlanks_of_solid (by decide) (by decide)]
  rfl

theorem next_dollar (rest : List Char) (position : Position) :
    next ⟨'$' :: rest,position⟩ =
      if (takeName rest (position.after '$')).1.isEmpty then
        (.error (.emptyVariable position),(takeName rest (position.after '$')).2)
      else
        (.ok ⟨.var (takeName rest (position.after '$')).1,position⟩,
          (takeName rest (position.after '$')).2) := by
  rw [next,skipBlanks_of_solid (by decide) (by decide)]
  rfl

theorem next_letter {c : Char} (letter : isNameChar c = true) (plain : c ≠ '$')
    (rest : List Char) (position : Position) :
    next ⟨c :: rest,position⟩ =
      (.ok ⟨.sym (takeName (c :: rest) position).1,position⟩,
        (takeName (c :: rest) position).2) := by
  obtain ⟨solid,notOpening,notClosing,code⟩ := (isNameChar_iff c).mp letter
  rw [next,skipBlanks_of_solid solid code]
  dsimp only
  split
  · next empty => cases empty
  · next same => exact absurd (List.cons.inj same).1 notOpening
  · next same => exact absurd (List.cons.inj same).1 notClosing
  · next same => exact absurd (List.cons.inj same).1 plain
  · rfl

theorem next_var {name : String} (readable : isName name = true) {rest : List Char}
    (ends : Ends rest) (position : Position) :
    next ⟨'$' :: (name.toList ++ rest),position⟩ =
      (.ok ⟨.var name,position⟩,⟨rest,(position.after '$').afterAll name.toList⟩) := by
  obtain ⟨full,chars⟩ := (isName_iff name).mp readable
  rw [next_dollar,takeName_append chars ends,String.ofList_toList,if_neg]
  rw [String.isEmpty_iff]
  intro given
  obtain rfl := given
  exact full rfl

theorem next_sym {name : String} (readable : isSymbolName name = true) {rest : List Char}
    (ends : Ends rest) (position : Position) :
    next ⟨name.toList ++ rest,position⟩ =
      (.ok ⟨.sym name,position⟩,⟨rest,position.afterAll name.toList⟩) := by
  obtain ⟨readable,plain⟩ := (isSymbolName_iff name).mp readable
  obtain ⟨full,chars⟩ := (isName_iff name).mp readable
  have taken := takeName_append chars ends position
  rw [String.ofList_toList] at taken
  cases letters : name.toList with
  | nil => exact absurd letters full
  | cons c others =>
    rw [letters] at taken plain
    have letter : isNameChar c = true := chars c (letters ▸ List.mem_cons_self)
    rw [List.cons_append,next_letter letter fun same => plain (congrArg some same),
      ← List.cons_append,taken]

/-! ### The tokens of a text -/

theorem isName_takeName (rest : List Char) (position : Position)
    (full : (takeName rest position).1.isEmpty = false) :
    isName (takeName rest position).1 = true := by
  rw [isName_iff]
  constructor
  · intro empty
    rw [String.toList_eq_nil_iff] at empty
    rw [empty] at full
    cases full
  · intro c member
    rw [takeName,String.toList_ofList] at member
    exact List.all_eq_true.mp List.all_takeWhile c member

theorem isWritten_next {cursor left : Cursor} {located : Located}
    (cut : cursor.next = (.ok located,left)) : located.token.isWritten = true := by
  rw [← next_skipBlanks] at cut
  have head := @skipBlanks_head cursor.rest cursor.position
  generalize skipBlanks cursor.rest cursor.position = ready at cut head
  obtain ⟨rest,position⟩ := ready
  cases rest with
  | nil =>
    rw [next_nil] at cut
    cases cut
    rfl
  | cons c rest =>
    obtain ⟨solid,code⟩ := head rfl
    by_cases opening : c = '('
    · rw [opening,next_opening] at cut
      cases cut
      rfl
    by_cases closing : c = ')'
    · rw [closing,next_closing] at cut
      cases cut
      rfl
    by_cases dollar : c = '$'
    · rw [dollar,next_dollar] at cut
      split at cut
      · cases cut
      · next full =>
        cases cut
        exact isName_takeName _ _ (Bool.not_eq_true _ ▸ full)
    · have letter := (isNameChar_iff c).mpr ⟨solid,opening,closing,code⟩
      rw [next_letter letter dollar] at cut
      cases cut
      have letters : (takeName (c :: rest) position).1.toList = c :: rest.takeWhile isNameChar := by
        rw [takeName,String.toList_ofList,List.takeWhile_cons_of_pos letter]
      refine (isSymbolName_iff _).mpr ⟨isName_takeName _ _ ?_,?_⟩
      · rw [← Bool.not_eq_true,String.isEmpty_iff,← String.toList_eq_nil_iff,letters]
        exact List.cons_ne_nil _ _
      · rw [letters,List.head?_cons]
        exact fun same => dollar (Option.some.inj same)

theorem tokens_step {cursor left : Cursor} {located : Located}
    (cut : cursor.next = (.ok located,left)) (more : located.token ≠ .finish)
    (before : List Located) : cursor.tokens before = left.tokens (located :: before) := by
  rw [tokens]
  split
  · next failed => rw [cut] at failed; cases failed
  · next found same =>
    rw [cut] at same
    obtain ⟨first,rfl⟩ := Prod.mk.inj same
    obtain rfl := Except.ok.inj first
    rw [dif_neg more]

theorem tokens_finish {cursor left : Cursor} {located : Located}
    (cut : cursor.next = (.ok located,left)) (last : located.token = .finish)
    (before : List Located) : cursor.tokens before = .ok (located :: before).reverse := by
  rw [tokens]
  split
  · next failed => rw [cut] at failed; cases failed
  · next found same =>
    rw [cut] at same
    obtain ⟨first,rfl⟩ := Prod.mk.inj same
    obtain rfl := Except.ok.inj first
    rw [dif_pos last]

theorem tokens_error {cursor left : Cursor} {error : ReadError}
    (cut : cursor.next = (.error error,left)) (before : List Located) :
    cursor.tokens before = .error error := by
  rw [tokens]
  split
  · next failed =>
    rw [cut] at failed
    obtain ⟨first,_⟩ := Prod.mk.inj failed
    rw [Except.error.inj first]
  · next found => rw [cut] at found; cases found

theorem tokens_congr {first second : Cursor} (same : first.next = second.next)
    (before : List Located) : first.tokens before = second.tokens before := by
  rcases cut : second.next with ⟨error | located,left⟩
  · rw [tokens_error (same.trans cut),tokens_error cut]
  · by_cases last : located.token = .finish
    · rw [tokens_finish (same.trans cut) last,tokens_finish cut last]
    · rw [tokens_step (same.trans cut) last,tokens_step cut last]

theorem isWritten_tokens (cursor : Cursor) (before : List Located) {tokens : List Located}
    (cut : cursor.tokens before = .ok tokens)
    (written : ∀ l ∈ before, l.token.isWritten = true) : ∀ l ∈ tokens, l.token.isWritten = true := by
  fun_induction Cursor.tokens cursor before with
  | case1 cursor before error left step => cases cut
  | case2 cursor before located left step ended =>
    obtain rfl := Except.ok.inj cut
    intro l member
    rcases List.mem_cons.mp (List.mem_reverse.mp member) with rfl | earlier
    · exact isWritten_next step
    · exact written l earlier
  | case3 cursor before located left step goesOn shorter ih =>
    apply ih cut
    intro l member
    rcases List.mem_cons.mp member with rfl | earlier
    · exact isWritten_next step
    · exact written l earlier

end Cursor

theorem isWritten_tokenize {text : String} {tokens : List Located}
    (cut : tokenize text = .ok tokens) : ∀ l ∈ tokens, l.token.isWritten = true :=
  Cursor.isWritten_tokens _ [] cut fun _ member => nomatch member

end AtomLogic.Text
