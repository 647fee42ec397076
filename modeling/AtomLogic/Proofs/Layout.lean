import AtomLogic.Proofs.Lexing
import Mathlib.Data.List.Forall2
import Mathlib.Data.List.Induction

/-! Where the tokens of a text stand. A text is laid out as tokens with gaps of blanks and comments between
them, and the lexer finds just this layout: each token is spelled where it is found, its position
counts the lines and characters in front of it, and only a dollar sign without a name stops the
lexer, which then goes on behind it. -/

namespace AtomLogic.Text

/-! ### Positions -/

/-- The place behind some characters: the line counts the line feeds among them, and the column the
characters since the last one. -/
def Position.behind (front : List Char) : Position :=
  ⟨1 + front.count '\n',1 + (front.reverse.takeWhile (· ≠ '\n')).length⟩

@[simp] theorem Position.behind_nil : behind [] = start := rfl

theorem Position.behind_concat (front : List Char) (c : Char) :
    behind (front ++ [c]) = (behind front).after c := by
  by_cases newline : c = '\n'
  · simp [behind,after,newline]
    omega
  · simp [behind,after,newline]
    omega

theorem Position.afterAll_behind (front text : List Char) :
    (behind front).afterAll text = behind (front ++ text) := by
  induction text generalizing front with
  | nil => simp [afterAll]
  | cons c text ih =>
    have later := ih (front ++ [c])
    rwa [behind_concat,List.append_assoc] at later

/-! ### Gaps -/

/-- Blanks and comments, if this rest follows them. A comment runs through the end of its line, or to
the end of the text. -/
inductive Skips : List Char → List Char → Prop where
  | nil (rest : List Char) : Skips [] rest
  | blank {c : Char} {gap rest : List Char} :
      isBlank c = true → Skips gap rest → Skips (c :: gap) rest
  | comment {inside gap rest : List Char} :
      '\n' ∉ inside → Skips gap rest → Skips (';' :: inside ++ '\n' :: gap) rest
  | unended {inside : List Char} : '\n' ∉ inside → Skips (';' :: inside) []

theorem exists_gap (text : List Char) : ∃ gap rest, text = gap ++ rest ∧ Skips gap rest ∧
    ∀ c ∈ rest.head?, isBlank c = false ∧ c ≠ ';' := by
  match text with
  | [] => exact ⟨[],[],rfl,.nil [],nofun⟩
  | c :: text =>
    by_cases blank : isBlank c = true
    · obtain ⟨gap,rest,rfl,skips,solid⟩ := exists_gap text
      exact ⟨c :: gap,rest,rfl,.blank blank skips,solid⟩
    by_cases code : c = ';'
    · subst code
      by_cases ended : '\n' ∈ text
      · obtain ⟨inside,left,rfl,single⟩ := List.eq_append_cons_of_mem ended
        obtain ⟨gap,rest,rfl,skips,solid⟩ := exists_gap left
        exact ⟨';' :: inside ++ '\n' :: gap,rest,by simp,.comment single skips,solid⟩
      · exact ⟨';' :: text,[],by simp,.unended ended,nofun⟩
    · exact ⟨[],c :: text,rfl,.nil _,by simp [blank,code]⟩
termination_by text.length

theorem skipComment_of_line {inside : List Char} (single : '\n' ∉ inside) (front rest : List Char) :
    Cursor.skipComment (inside ++ '\n' :: rest) (.behind front) =
      ⟨rest,.behind (front ++ inside ++ ['\n'])⟩ := by
  induction inside generalizing front with
  | nil => simp [Cursor.skipComment,Position.behind_concat]
  | cons c inside ih =>
    rw [List.mem_cons,not_or] at single
    rw [List.cons_append,Cursor.skipComment,if_neg (Ne.symm single.1),← Position.behind_concat,
      ih single.2]
    simp

theorem skipComment_of_single {inside : List Char} (single : '\n' ∉ inside) (front : List Char) :
    Cursor.skipComment inside (.behind front) = ⟨[],.behind (front ++ inside)⟩ := by
  induction inside generalizing front with
  | nil => simp [Cursor.skipComment]
  | cons c inside ih =>
    rw [List.mem_cons,not_or] at single
    rw [Cursor.skipComment,if_neg (Ne.symm single.1),← Position.behind_concat,ih single.2]
    simp

/-- The lexer goes over a gap. -/
theorem Skips.next {gap rest : List Char} (skips : Skips gap rest) (front : List Char) :
    Cursor.next ⟨gap ++ rest,.behind front⟩ = Cursor.next ⟨rest,.behind (front ++ gap)⟩ := by
  induction skips generalizing front with
  | nil rest => simp
  | @blank c gap rest blank _ ih =>
    rw [List.cons_append,Cursor.next_blank blank,← Position.behind_concat,ih]
    simp
  | @comment inside gap rest single _ ih =>
    rw [List.append_assoc,List.cons_append,List.cons_append,Cursor.next_comment,
      ← Position.behind_concat,skipComment_of_line single,ih]
    simp
  | @unended inside single =>
    rw [List.append_nil,Cursor.next_comment,← Position.behind_concat,skipComment_of_single single]
    simp

/-! ### Tokens -/

def Token.isNamed : Token → Bool
  | .sym _ => true
  | .var _ => true
  | _ => false

/-- The token can stand in front of the rest: it can be written, and as a name it goes no further. -/
structure Token.Leads (token : Token) (rest : List Char) : Prop where
  inner : token ≠ .finish
  written : token.isWritten = true
  maximal : token.isNamed = true → Ends rest

theorem Token.Leads.text_ne_nil {token : Token} {rest : List Char} (leads : token.Leads rest) :
    token.text.toList ≠ [] := by
  cases token with
  | opening => decide
  | closing => decide
  | sym name => exact ((isName_iff name).mp ((isSymbolName_iff name).mp leads.written).1).1
  | var name => simp [Token.text]
  | finish => exact absurd rfl leads.inner

theorem Token.Leads.next {token : Token} {rest : List Char} (leads : token.Leads rest)
    (position : Position) : Cursor.next ⟨token.text.toList ++ rest,position⟩ =
      (.ok ⟨token,position⟩,⟨rest,position.afterAll token.text.toList⟩) := by
  cases token with
  | opening => exact Cursor.next_opening rest position
  | closing => exact Cursor.next_closing rest position
  | sym name => exact Cursor.next_sym leads.written (leads.maximal rfl) position
  | var name =>
    rw [Token.text,String.toList_append]
    exact Cursor.next_var leads.written (leads.maximal rfl) position
  | finish => exact absurd rfl leads.inner

/-- What can follow a gap: the end of the text, a token, or a dollar sign that has no name. -/
inductive Begins : List Char → Prop where
  | ended : Begins []
  | token (token : Token) {rest : List Char} :
      token.Leads rest → Begins (token.text.toList ++ rest)
  | nameless {rest : List Char} : Ends rest → Begins ('$' :: rest)

theorem begins_of_solid {text : List Char}
    (solid : ∀ c ∈ text.head?, isBlank c = false ∧ c ≠ ';') : Begins text := by
  cases text with
  | nil => exact .ended
  | cons c text =>
    obtain ⟨solid,code⟩ := solid c rfl
    have chars : ∀ c ∈ text.takeWhile isNameChar, isNameChar c = true :=
      List.all_eq_true.mp List.all_takeWhile
    by_cases opening : c = '('
    · exact opening ▸ .token .opening ⟨nofun,rfl,nofun⟩
    by_cases closing : c = ')'
    · exact closing ▸ .token .closing ⟨nofun,rfl,nofun⟩
    rw [← List.takeWhile_append_dropWhile (p := isNameChar) (l := text)]
    by_cases dollar : c = '$'
    · subst dollar
      cases name : text.takeWhile isNameChar with
      | nil => exact .nameless (ends_dropWhile text)
      | cons first others =>
        have named : isName (String.ofList (first :: others)) = true := by
          rw [isName_iff,String.toList_ofList]
          exact ⟨List.cons_ne_nil _ _,name ▸ chars⟩
        have begun := Begins.token (.var (String.ofList (first :: others)))
          ⟨nofun,named,fun _ => ends_dropWhile text⟩
        simpa [Token.text] using begun
    · have letter : isNameChar c = true := (isNameChar_iff c).mpr ⟨solid,opening,closing,code⟩
      have named : isSymbolName (String.ofList (c :: text.takeWhile isNameChar)) = true := by
        rw [isSymbolName_iff,isName_iff,String.toList_ofList]
        exact ⟨⟨List.cons_ne_nil _ _,List.forall_mem_cons.mpr ⟨letter,chars⟩⟩,by simpa using dollar⟩
      have begun := Begins.token (.sym (String.ofList (c :: text.takeWhile isNameChar)))
        ⟨nofun,named,fun _ => ends_dropWhile text⟩
      simpa [Token.text] using begun

/-! ### Layouts -/

/-- Behind the front, a text is laid out as these tokens with gaps in front of them, if this rest
follows it. -/
inductive Lays : List Char → List Char → List Located → List Char → Prop where
  | nil (front rest : List Char) : Lays front [] [] rest
  | cons {front gap text rest : List Char} {token : Token} {others : List Located} :
      Skips gap (token.text.toList ++ (text ++ rest)) → token.Leads (text ++ rest) →
      Lays (front ++ gap ++ token.text.toList) text others rest →
      Lays front (gap ++ token.text.toList ++ text) (⟨token,.behind (front ++ gap)⟩ :: others) rest

/-- The lexer stops here: behind the tokens and a gap there is a dollar sign without a name. -/
structure Nameless (text front after : List Char) (located : List Located) : Prop where
  split : text = front ++ '$' :: after
  reached : ∃ laid gap, front = laid ++ gap ∧ Lays [] laid located (gap ++ '$' :: after) ∧
    Skips gap ('$' :: after)
  ends : Ends after

/-- Every text is laid out up to its end or to a dollar sign without a name. -/
theorem exists_lays (front text : List Char) : ∃ laid located rest, text = laid ++ rest ∧
    Lays front laid located rest ∧ (Skips rest [] ∨
      ∃ gap after, rest = gap ++ '$' :: after ∧ Skips gap ('$' :: after) ∧ Ends after) := by
  obtain ⟨gap,rest,rfl,skips,solid⟩ := exists_gap text
  cases begins_of_solid solid with
  | ended => exact ⟨[],[],gap,by simp,.nil front gap,.inl skips⟩
  | nameless ends => exact ⟨[],[],_,rfl,.nil front _,.inr ⟨gap,_,rfl,skips,ends⟩⟩
  | @token token rest leads =>
    have shorter : rest.length < (gap ++ (token.text.toList ++ rest)).length := by
      have := List.length_pos_of_ne_nil leads.text_ne_nil
      simp only [List.length_append]
      omega
    obtain ⟨laid,located,left,rfl,lays,stopped⟩ :=
      exists_lays (front ++ gap ++ token.text.toList) rest
    exact ⟨gap ++ token.text.toList ++ laid,_,left,by simp,.cons skips leads lays,stopped⟩
termination_by text.length

/-! ### What the lexer does with a layout -/

theorem Skips.next_token {gap rest : List Char} {token : Token}
    (skips : Skips gap (token.text.toList ++ rest)) (leads : token.Leads rest) (front : List Char) :
    Cursor.next ⟨gap ++ token.text.toList ++ rest,.behind front⟩ =
      (.ok ⟨token,.behind (front ++ gap)⟩,⟨rest,.behind (front ++ gap ++ token.text.toList)⟩) := by
  rw [List.append_assoc,skips.next,leads.next,Position.afterAll_behind]

theorem Skips.next_nameless {gap after : List Char} (skips : Skips gap ('$' :: after))
    (ends : Ends after) (front : List Char) :
    Cursor.next ⟨gap ++ '$' :: after,.behind front⟩ =
      (.error (.emptyVariable (.behind (front ++ gap))),⟨after,.behind (front ++ gap ++ ['$'])⟩) := by
  have taken := Cursor.takeName_append (List.forall_mem_nil _) ends
    ((Position.behind (front ++ gap)).after '$')
  rw [List.nil_append] at taken
  rw [skips.next,Cursor.next_dollar,taken,Position.behind_concat]
  simp [Position.afterAll]

theorem Skips.next_finish {gap : List Char} (skips : Skips gap []) (front : List Char) :
    Cursor.next ⟨gap,.behind front⟩ =
      (.ok ⟨.finish,.behind (front ++ gap)⟩,⟨[],.behind (front ++ gap)⟩) := by
  have passed := skips.next front
  rwa [List.append_nil,Cursor.next_nil] at passed

theorem Lays.tokens {front laid rest : List Char} {located : List Located}
    (lays : Lays front laid located rest) (before : List Located) :
    Cursor.tokens ⟨laid ++ rest,.behind front⟩ before =
      Cursor.tokens ⟨rest,.behind (front ++ laid)⟩ (located.reverse ++ before) := by
  induction lays generalizing before with
  | nil front rest => simp
  | @cons front gap text rest token others skips leads lays ih =>
    have step := skips.next_token leads front
    rw [List.append_assoc,Cursor.tokens_step step leads.inner,ih]
    simp

theorem tokenize_of_lays {text : String} {laid gap : List Char} {located : List Located}
    (split : text.toList = laid ++ gap) (lays : Lays [] laid located gap) (skips : Skips gap []) :
    tokenize text = .ok (located ++ [⟨.finish,.behind text.toList⟩]) := by
  have cut := lays.tokens []
  rw [Cursor.tokens_finish (skips.next_finish _) rfl] at cut
  rw [tokenize,Cursor.ofString,split]
  refine cut.trans ?_
  simp

theorem tokenize_of_nameless {text : String} {front after : List Char} {located : List Located}
    (nameless : Nameless text.toList front after located) :
    tokenize text = .error (.emptyVariable (.behind front)) := by
  obtain ⟨split,⟨laid,gap,rfl,lays,skips⟩,ends⟩ := nameless
  have cut := lays.tokens []
  rw [Cursor.tokens_error (skips.next_nameless ends _),← List.append_assoc,← split] at cut
  exact cut

/-- The tokens of a text are those that it is laid out as, up to its end. -/
theorem tokenize_eq_ok_iff {text : String} {tokens : List Located} :
    tokenize text = .ok tokens ↔ ∃ laid gap located, text.toList = laid ++ gap ∧
      Lays [] laid located gap ∧ Skips gap [] ∧
        tokens = located ++ [⟨.finish,.behind text.toList⟩] := by
  constructor
  · intro cut
    obtain ⟨laid,located,rest,split,lays,skips | ⟨gap,after,rfl,skips,ends⟩⟩ :=
      exists_lays [] text.toList
    · rw [tokenize_of_lays split lays skips] at cut
      exact ⟨laid,rest,located,split,lays,skips,(Except.ok.inj cut).symm⟩
    · have nameless : Nameless text.toList (laid ++ gap) after located :=
        ⟨by simp [split],⟨laid,gap,rfl,lays,skips⟩,ends⟩
      rw [tokenize_of_nameless nameless] at cut
      cases cut
  · rintro ⟨laid,gap,located,split,lays,skips,rfl⟩
    exact tokenize_of_lays split lays skips

theorem tokenize_eq_error_iff {text : String} {error : ReadError} :
    tokenize text = .error error ↔ ∃ front after located,
      Nameless text.toList front after located ∧ error = .emptyVariable (.behind front) := by
  constructor
  · intro cut
    obtain ⟨laid,located,rest,split,lays,skips | ⟨gap,after,rfl,skips,ends⟩⟩ :=
      exists_lays [] text.toList
    · rw [tokenize_of_lays split lays skips] at cut
      cases cut
    · have nameless : Nameless text.toList (laid ++ gap) after located :=
        ⟨by simp [split],⟨laid,gap,rfl,lays,skips⟩,ends⟩
      rw [tokenize_of_nameless nameless] at cut
      exact ⟨_,_,_,nameless,(Except.error.inj cut).symm⟩
  · rintro ⟨front,after,located,nameless,rfl⟩
    exact tokenize_of_nameless nameless

/-! ### One call after the other -/

/-- What a number of calls yield, one after the other. -/
def Cursor.calls : Nat → Cursor → List (Except ReadError Located)
  | 0, _ => []
  | n+1, cursor => cursor.next.1 :: calls n cursor.next.2

/-- The place in a whole text of a place in the part of it behind the origin. -/
def Position.beyond (origin place : Position) : Position :=
  if place.line = 1 then ⟨origin.line,origin.column + (place.column - 1)⟩
  else ⟨origin.line + (place.line - 1),place.column⟩

theorem Position.beyond_after (origin place : Position) (c : Char) (line : 1 ≤ place.line)
    (column : 1 ≤ place.column) : origin.beyond (place.after c) = (origin.beyond place).after c := by
  by_cases newline : c = '\n'
  · have later : place.line + 1 ≠ 1 := by omega
    simp only [beyond,after,newline,if_true,if_neg later]
    split
    · simp_all
    · simp only [Position.mk.injEq,and_true]
      omega
  · simp only [beyond,after,if_neg newline]
    split
    · simp only [Position.mk.injEq,true_and]
      omega
    · rfl

theorem Position.beyond_behind (front text : List Char) :
    (behind front).beyond (behind text) = behind (front ++ text) := by
  induction text using List.reverseRecOn with
  | nil => simp [beyond,behind]
  | append_singleton text c ih =>
    rw [behind_concat,beyond_after,ih,← behind_concat,List.append_assoc]
    · exact Nat.le_add_right 1 _
    · exact Nat.le_add_right 1 _

def ReadError.mapPosition (change : Position → Position) : ReadError → ReadError
  | emptyInput => emptyInput
  | unclosed opened => unclosed (change opened)
  | unmatchedClose position => unmatchedClose (change position)
  | emptyVariable position => emptyVariable (change position)
  | trailingInput position => trailingInput (change position)
  | danglingQuery position => danglingQuery (change position)
  | tooDeep position => tooDeep (change position)

/-- What a call yields in the part of a text behind the origin, with the places in the whole text. -/
def relocate (origin : Position) : Except ReadError Located → Except ReadError Located
  | .ok l => .ok ⟨l.token,origin.beyond l.position⟩
  | .error e => .error (e.mapPosition origin.beyond)

/-- A call yields the same in a text and in a part of it, but for where the part stands. -/
theorem next_relocate (front seen text : List Char) : ∃ result more left,
    Cursor.next ⟨text,.behind seen⟩ = (result,⟨left,.behind (seen ++ more)⟩) ∧
      Cursor.next ⟨text,.behind (front ++ seen)⟩ =
        (relocate (.behind front) result,⟨left,.behind (front ++ (seen ++ more))⟩) := by
  obtain ⟨gap,rest,rfl,skips,solid⟩ := exists_gap text
  cases begins_of_solid solid with
  | ended =>
    refine ⟨.ok ⟨.finish,.behind (seen ++ gap)⟩,gap,[],?_,?_⟩
    · rw [List.append_nil,skips.next_finish]
    · rw [List.append_nil,skips.next_finish]
      simp [relocate,Position.beyond_behind]
  | @nameless after ends =>
    refine ⟨.error (.emptyVariable (.behind (seen ++ gap))),gap ++ ['$'],after,?_,?_⟩
    · rw [skips.next_nameless ends,List.append_assoc]
    · rw [skips.next_nameless ends]
      simp [relocate,ReadError.mapPosition,Position.beyond_behind]
  | @token token rest leads =>
    rw [← List.append_assoc]
    refine ⟨.ok ⟨token,.behind (seen ++ gap)⟩,gap ++ token.text.toList,rest,?_,?_⟩
    · rw [skips.next_token leads,List.append_assoc]
    · rw [skips.next_token leads]
      simp [relocate,Position.beyond_behind]

theorem calls_relocate (n : Nat) (front seen text : List Char) :
    Cursor.calls n ⟨text,.behind (front ++ seen)⟩ =
      (Cursor.calls n ⟨text,.behind seen⟩).map (relocate (.behind front)) := by
  induction n generalizing seen text with
  | zero => rfl
  | succ n ih =>
    obtain ⟨result,more,left,own,whole⟩ := next_relocate front seen text
    rw [Cursor.calls,Cursor.calls,own,whole,List.map_cons,ih]

theorem Lays.calls {front laid rest : List Char} {located : List Located}
    (lays : Lays front laid located rest) (n : Nat) :
    Cursor.calls (located.length + n) ⟨laid ++ rest,.behind front⟩ =
      located.map .ok ++ Cursor.calls n ⟨rest,.behind (front ++ laid)⟩ := by
  induction lays with
  | nil front rest => simp
  | @cons front gap text rest token others skips leads lays ih =>
    have step := skips.next_token leads front
    rw [List.append_assoc,List.length_cons,Nat.add_right_comm,Cursor.calls,step,ih]
    simp

/-! ### Offsets -/

/-- The token is spelled in the text at the offset, its position is the place there, and as a name it
goes no further. -/
structure Stands (text : List Char) (offset : Nat) (l : Located) : Prop where
  inner : l.token ≠ .finish
  written : l.token.isWritten = true
  spelled : l.token.text.toList <+: text.drop offset
  position : l.position = .behind (text.take offset)
  maximal : l.token.isNamed = true → Ends (text.drop (offset + l.token.text.toList.length))

/-- From the start on, there are only blanks and comments between the tokens and behind the last one. -/
def Spaced (text : List Char) (start : Nat) : List (Nat × Located) → Prop
  | [] => Skips (text.drop start) []
  | (offset,l) :: others =>
    start ≤ offset ∧ Skips ((text.drop start).take (offset - start)) (text.drop offset) ∧
      Spaced text (offset + l.token.text.toList.length) others

theorem Token.Leads.stands {token : Token} {rest : List Char} (leads : token.Leads rest)
    (front : List Char) :
    Stands (front ++ (token.text.toList ++ rest)) front.length ⟨token,.behind front⟩ where
  inner := leads.inner
  written := leads.written
  spelled := by
    rw [List.drop_left]
    exact List.prefix_append _ _
  position := by rw [List.take_left]
  maximal named := by
    rw [← List.drop_drop,List.drop_left,List.drop_left]
    exact leads.maximal named

/-- A layout puts its tokens at growing offsets of the whole text. -/
theorem Lays.offsets {front laid rest : List Char} {located : List Located}
    (lays : Lays front laid located rest) : ∃ offsets : List Nat,
      offsets.Pairwise (· < ·) ∧ (∀ offset ∈ offsets, front.length ≤ offset) ∧
      List.Forall₂ (Stands (front ++ laid ++ rest)) offsets located ∧
      (Skips rest [] → Spaced (front ++ laid ++ rest) front.length (offsets.zip located)) := by
  induction lays with
  | nil front rest =>
    refine ⟨[],.nil,List.forall_mem_nil _,.nil,fun skips => ?_⟩
    simpa [Spaced] using skips
  | @cons front gap text rest token others skips leads lays ih =>
    obtain ⟨offsets,increasing,beyond,stands,spaced⟩ := ih
    have whole : front ++ gap ++ token.text.toList ++ text ++ rest =
        front ++ (gap ++ token.text.toList ++ text) ++ rest := by simp
    have split : front ++ (gap ++ token.text.toList ++ text) ++ rest =
        front ++ gap ++ (token.text.toList ++ (text ++ rest)) := by simp
    have length : (front ++ gap ++ token.text.toList).length =
        (front ++ gap).length + token.text.toList.length := List.length_append
    have positive := List.length_pos_of_ne_nil leads.text_ne_nil
    rw [whole] at stands spaced
    refine ⟨(front ++ gap).length :: offsets,?_,?_,.cons (split ▸ leads.stands (front ++ gap)) stands,
      fun ended => ⟨?_,?_,length ▸ spaced ended⟩⟩
    · refine List.pairwise_cons.mpr ⟨fun offset later => ?_,increasing⟩
      have := beyond offset later
      omega
    · refine List.forall_mem_cons.mpr ⟨by simp,fun offset later => ?_⟩
      have := beyond offset later
      simp only [List.length_append] at this
      omega
    · simp
    · rw [split,List.drop_left]
      simpa using skips

/-- The tokens of a text stand in it at growing offsets, with only blanks and comments between them, up
to the mark of the end at its end. A text has no tokens just if behind some tokens there is a dollar
sign without a name, which is what the error names. Calls that go on after the error yield what they
would in the text behind the dollar sign alone. -/
theorem tokenize_exact (text : String) :
    (∀ tokens, tokenize text = .ok tokens → ∃ located offsets,
      tokens = located ++ [⟨.finish,.behind text.toList⟩] ∧ offsets.Pairwise (· < ·) ∧
        List.Forall₂ (Stands text.toList) offsets located ∧
          Spaced text.toList 0 (offsets.zip located)) ∧
      (∀ error, tokenize text = .error error ↔ ∃ front after located,
        Nameless text.toList front after located ∧ error = .emptyVariable (.behind front)) ∧
      ∀ front after located, Nameless text.toList front after located → ∀ n,
        Cursor.calls (located.length + (n + 1)) (.ofString text) =
          located.map .ok ++ .error (.emptyVariable (.behind front)) ::
            (Cursor.calls n (.ofString (.ofList after))).map (relocate (.behind (front ++ ['$']))) := by
  refine ⟨fun tokens cut => ?exact,fun error => tokenize_eq_error_iff,?_⟩
  case exact =>
    obtain ⟨laid,gap,located,split,lays,skips,rfl⟩ := tokenize_eq_ok_iff.mp cut
    obtain ⟨offsets,increasing,_,stands,spaced⟩ := lays.offsets
    rw [List.nil_append,← split] at stands spaced
    exact ⟨located,offsets,rfl,increasing,stands,spaced skips⟩
  · intro front after located nameless n
    obtain ⟨split,⟨laid,gap,rfl,lays,skips⟩,ends⟩ := nameless
    have yielded := lays.calls (n + 1)
    rw [Cursor.calls,skips.next_nameless ends,← List.append_assoc,← split] at yielded
    have moved := calls_relocate n (laid ++ gap ++ ['$']) [] after
    rw [List.append_nil] at moved
    rw [Cursor.ofString,Cursor.ofString,String.toList_ofList]
    exact yielded.trans (congrArg _ (congrArg _ moved))

private def noted : String := "$a;n\n(b"

private def notedTokens : List Located := [⟨.var "a",⟨1,1⟩⟩,⟨.opening,⟨2,1⟩⟩,⟨.sym "b",⟨2,2⟩⟩]

/-- A comment stands between two tokens. After the error the rest of the line goes on where it stands. -/
theorem tokenize_exact_noted :
    tokenize noted = .ok (notedTokens ++ [⟨.finish,⟨2,3⟩⟩]) ∧
    (∃ offsets : List Nat, offsets.Pairwise (· < ·) ∧
      List.Forall₂ (Stands noted.toList) offsets notedTokens ∧
        Spaced noted.toList 0 (offsets.zip notedTokens)) ∧
    tokenize "p $ q" = .error (.emptyVariable ⟨1,3⟩) ∧
    ∃ front after located, Nameless "p $ q".toList front after located ∧
      Cursor.calls (located.length + 2) (.ofString "p $ q") =
        located.map .ok ++ .error (.emptyVariable ⟨1,3⟩) ::
          (Cursor.calls 1 (.ofString (.ofList after))).map (relocate (.behind (front ++ ['$']))) := by
  have cut : tokenize noted = .ok (notedTokens ++ [⟨.finish,⟨2,3⟩⟩]) := by decide +kernel
  have failed : tokenize "p $ q" = .error (.emptyVariable ⟨1,3⟩) := by decide +kernel
  refine ⟨cut,?_,failed,?_⟩
  · obtain ⟨located,offsets,same,exact⟩ := (tokenize_exact _).1 _ cut
    obtain ⟨rfl,_⟩ := List.append_inj' same rfl
    exact ⟨offsets,exact⟩
  · obtain ⟨front,after,located,nameless,same⟩ := ((tokenize_exact _).2.1 _).mp failed
    refine ⟨front,after,located,nameless,?_⟩
    rw [same]
    exact (tokenize_exact _).2.2 front after located nameless 1

end AtomLogic.Text
