import AtomLogic.Conversation
import AtomLogic.Proofs.Balance

/-! Programs that are cut into pieces. A text that is read as a program has the same tokens in front
of a line end as on its own, even if it ends in a comment, and blanks around it add none. So the
statements of programs on lines of their own are those of all the programs, and running them
together does what running one after the other does. -/

namespace AtomLogic

namespace Text

namespace Cursor

/-- The kind of a token that was cut, if there was no error, and the text behind it. -/
def shape : Except ReadError Located × Cursor → Option Token × List Char
  | (.ok l,left) => (some l.token,left.rest)
  | (.error _,left) => (none,left.rest)

/-- No name goes on in these characters, and a comment that they end hides nothing of them: behind
a comment the next token is the same as on their own. -/
structure Separates (rest : List Char) : Prop where
  ends : Ends rest
  closes : ∀ position, next (skipComment rest position) = next ⟨rest,position⟩

theorem separates_line (rest : List Char) : Separates ('\n' :: rest) where
  ends := ends_cons (by decide) rest
  closes position := by
    rw [skipComment,if_pos rfl,next_blank (by decide)]

theorem separates_blanks {blanks : List Char} (blank : ∀ c ∈ blanks, isBlank c = true) :
    Separates blanks := by
  constructor
  · intro c first
    exact isNameChar_of_blank (blank c (List.mem_of_mem_head? first))
  · induction blanks with
    | nil => exact fun position => rfl
    | cons c blanks ih =>
      rw [List.forall_mem_cons] at blank
      intro position
      rw [skipComment,next_blank blank.1]
      split
      · rfl
      · exact ih blank.2 _

/-! ### A text in front of another -/

theorem skipComment_append (text rest : List Char) (position other : Position) :
    ((skipComment text position).rest = [] ∧
        ∃ after, skipComment (text ++ rest) other = skipComment rest after) ∨
      ∃ after, skipComment (text ++ rest) other = ⟨(skipComment text position).rest ++ rest,after⟩ := by
  induction text generalizing position other with
  | nil => exact .inl ⟨rfl,other,rfl⟩
  | cons c text ih =>
    rw [List.cons_append,skipComment,skipComment]
    split
    · exact .inr ⟨_,rfl⟩
    · exact ih _ _

section
variable {rest : List Char} (separates : Separates rest)
include separates

theorem next_append (text : List Char) (position other : Position) :
    ∃ after, next ⟨text ++ rest,other⟩ =
      next ⟨(skipBlanks text position).rest ++ rest,after⟩ := by
  fun_induction skipBlanks text position generalizing other with
  | case1 => exact ⟨other,rfl⟩
  | case2 position c text blank ih =>
    rw [List.cons_append,next_blank blank]
    exact ih _
  | case3 text position solid ih =>
    rw [List.cons_append,next_comment]
    rcases skipComment_append text rest (position.after ';') (other.after ';') with
      ⟨ended,after,same⟩ | ⟨after,same⟩
    · rw [same,separates.closes,ended,skipBlanks]
      exact ⟨after,rfl⟩
    · rw [same]
      exact ih after
  | case4 position c text solid code => exact ⟨other,rfl⟩

theorem takeName_append_right (text : List Char) (position other : Position) :
    (takeName (text ++ rest) other).1 = (takeName text position).1 ∧
      (takeName (text ++ rest) other).2.rest = (takeName text position).2.rest ++ rest := by
  have chars : ∀ c ∈ text.takeWhile isNameChar, isNameChar c = true :=
    List.all_eq_true.mp List.all_takeWhile
  have ends : Ends (text.dropWhile isNameChar ++ rest) :=
    (ends_dropWhile text).append separates.ends
  have split : text ++ rest = text.takeWhile isNameChar ++ (text.dropWhile isNameChar ++ rest) := by
    rw [← List.append_assoc,List.takeWhile_append_dropWhile]
  rw [split,takeName_append chars ends]
  exact ⟨rfl,rfl⟩

theorem shape_next_solid {c : Char} (solid : isBlank c = false) (code : c ≠ ';')
    (text : List Char) (position other : Position) :
    (shape (next ⟨c :: text,position⟩)).1 ≠ some .finish ∧
      shape (next ⟨c :: text ++ rest,other⟩) =
        ((shape (next ⟨c :: text,position⟩)).1,(shape (next ⟨c :: text,position⟩)).2 ++ rest) := by
  by_cases opening : c = '('
  · rw [opening,List.cons_append,next_opening,next_opening]
    exact ⟨nofun,rfl⟩
  by_cases closing : c = ')'
  · rw [closing,List.cons_append,next_closing,next_closing]
    exact ⟨nofun,rfl⟩
  by_cases dollar : c = '$'
  · obtain ⟨name,left⟩ := takeName_append_right separates text (position.after '$') (other.after '$')
    rw [dollar,List.cons_append,next_dollar,next_dollar,name]
    split
    · exact ⟨nofun,congrArg _ left⟩
    · exact ⟨nofun,congrArg _ left⟩
  · have letter := (isNameChar_iff c).mpr ⟨solid,opening,closing,code⟩
    obtain ⟨name,left⟩ := takeName_append_right separates (c :: text) position other
    rw [List.cons_append] at name left
    rw [List.cons_append,next_letter letter dollar,next_letter letter dollar,name]
    exact ⟨nofun,congrArg _ left⟩

/-- In front of separating characters a text is cut as on its own, up to its end. -/
theorem shape_next_append (cursor : Cursor) (other : Position) :
    ((shape cursor.next).1 = some .finish →
        ∃ after, next ⟨cursor.rest ++ rest,other⟩ = next ⟨rest,after⟩) ∧
      ((shape cursor.next).1 ≠ some .finish → shape (next ⟨cursor.rest ++ rest,other⟩) =
        ((shape cursor.next).1,(shape cursor.next).2 ++ rest)) := by
  obtain ⟨after,same⟩ := next_append separates cursor.rest cursor.position other
  have head := @skipBlanks_head cursor.rest cursor.position
  rw [same,← next_skipBlanks cursor]
  generalize skipBlanks cursor.rest cursor.position = ready at head ⊢
  obtain ⟨text,position⟩ := ready
  cases text with
  | nil =>
    rw [next_nil]
    exact ⟨fun _ => ⟨after,rfl⟩,fun more => absurd rfl more⟩
  | cons c text =>
    obtain ⟨solid,code⟩ := head rfl
    obtain ⟨more,cut⟩ := shape_next_solid separates solid code text position after
    exact ⟨fun ended => absurd ended more,fun _ => cut⟩

theorem next_append_of_finish {cursor left : Cursor} {position : Position}
    (step : cursor.next = (.ok ⟨.finish,position⟩,left)) (other : Position) :
    ∃ after, next ⟨cursor.rest ++ rest,other⟩ = next ⟨rest,after⟩ :=
  (shape_next_append separates cursor other).1 (by rw [step]; rfl)

theorem next_append_of_token {cursor left : Cursor} {located : Located}
    (step : cursor.next = (.ok located,left)) (more : located.token ≠ .finish) (other : Position) :
    ∃ first after, next ⟨cursor.rest ++ rest,other⟩ = (.ok first,⟨left.rest ++ rest,after⟩) ∧
      first.token = located.token := by
  have same := (shape_next_append separates cursor other).2
  rw [step] at same
  have same := same fun last => more (Option.some.inj last)
  rcases found : next ⟨cursor.rest ++ rest,other⟩ with ⟨error | first,⟨text,after⟩⟩
  · rw [found] at same
    cases same
  · rw [found] at same
    obtain ⟨token,rfl⟩ := Prod.mk.inj same
    exact ⟨first,after,rfl,Option.some.inj token⟩

theorem next_append_of_error {cursor left : Cursor} {error : ReadError}
    (step : cursor.next = (.error error,left)) (other : Position) :
    ∃ error left, next ⟨cursor.rest ++ rest,other⟩ = (.error error,left) := by
  have same := (shape_next_append separates cursor other).2
  rw [step] at same
  have same := same nofun
  rcases found : next ⟨cursor.rest ++ rest,other⟩ with ⟨error | first,left⟩
  · exact ⟨error,left,rfl⟩
  · rw [found] at same
    cases same

theorem tokens_append_error {cursor : Cursor} {before : List Located} {error : ReadError}
    (failed : cursor.tokens before = .error error) (other : Position) (earlier : List Located) :
    ∃ error, Cursor.tokens ⟨cursor.rest ++ rest,other⟩ earlier = .error error := by
  fun_induction Cursor.tokens cursor before generalizing other earlier with
  | case1 cursor before fault left step =>
    obtain ⟨fault,left,found⟩ := next_append_of_error separates step other
    exact ⟨fault,tokens_error found _⟩
  | case2 cursor before located left step ended => cases failed
  | case3 cursor before located left step goesOn shorter ih =>
    obtain ⟨first,middle,found,token⟩ := next_append_of_token separates step goesOn other
    rw [tokens_step found (token ▸ goesOn)]
    exact ih failed middle _

end

/-- A text that is cut into tokens without an error is cut into the same ones in front of
separating characters. -/
theorem cuts_of_tokens {cursor : Cursor} {before cut : List Located}
    (done : cursor.tokens before = .ok cut) :
    ∃ located position, cut = before.reverse ++ located ++ [⟨.finish,position⟩] ∧
      (∀ l ∈ located, l.token ≠ .finish) ∧
        ∀ rest, Separates rest → Cuts cursor.rest (located.map Located.token) rest := by
  fun_induction Cursor.tokens cursor before with
  | case1 cursor before error left step => cases done
  | case2 cursor before located left step ended =>
    obtain rfl := Except.ok.inj done
    obtain ⟨token,position⟩ := located
    obtain rfl : token = .finish := ended
    refine ⟨[],position,by simp,List.forall_mem_nil _,fun rest separates other => ?_⟩
    obtain ⟨after,same⟩ := next_append_of_finish separates step other
    exact ⟨[],after,rfl,tokens_congr same⟩
  | case3 cursor before located left step goesOn shorter ih =>
    obtain ⟨others,position,rfl,inside,cuts⟩ := ih done
    refine ⟨located :: others,position,by simp,List.forall_mem_cons.mpr ⟨goesOn,inside⟩,?_⟩
    intro rest separates other
    obtain ⟨first,middle,found,token⟩ := next_append_of_token separates step goesOn other
    obtain ⟨later,last,laterSame,laterCut⟩ := cuts rest separates middle
    refine ⟨first :: later,last,by rw [List.map_cons,List.map_cons,token,laterSame],?_⟩
    intro before
    rw [tokens_step found (token ▸ goesOn),laterCut,List.reverse_cons,List.append_assoc,
      List.singleton_append]

end Cursor

open Cursor

theorem Cuts.blanks {blanks : List Char} (blank : ∀ c ∈ blanks, isBlank c = true)
    (rest : List Char) : Cuts blanks [] rest := by
  induction blanks with
  | nil => exact Cuts.nil rest
  | cons c blanks ih =>
    rw [List.forall_mem_cons] at blank
    exact (Cuts.blank blank.1 (blanks ++ rest)).append (ih blank.2)

theorem exists_eq_trimBlanks (text : List Char) :
    ∃ before after, text = before ++ trimBlanks text ++ after ∧
      (∀ c ∈ before, isBlank c = true) ∧ ∀ c ∈ after, isBlank c = true := by
  have blank : ∀ text : List Char, ∀ c ∈ text.takeWhile isBlank, isBlank c = true :=
    fun text => List.all_eq_true.mp List.all_takeWhile
  refine ⟨text.takeWhile isBlank,((text.dropWhile isBlank).reverse.takeWhile isBlank).reverse,
    ?_,blank text,fun c member => blank _ c (List.mem_reverse.mp member)⟩
  rw [trimBlanks,List.append_assoc,← List.reverse_append,List.takeWhile_append_dropWhile,
    List.reverse_reverse,List.takeWhile_append_dropWhile]

/-! ### The statements of a text -/

theorem readable_of_readAs {use : Atom → Statement} {tokens left : List Located}
    {s : Statement} (read : readAs use tokens = (.ok s,left)) :
    ∃ a used, s = use a ∧ tokens = used ++ left ∧ (∀ l ∈ used, l.token ≠ .finish) ∧
      used.map Located.token = a.tokens ∧ a.depth ≤ maximalDepth := by
  rw [readAs] at read
  split at read
  · next a rest step =>
    cases read
    obtain ⟨used,rfl,inside,same,scanned⟩ := tokens_of_readAtom step
    rw [pendingTokens,List.nil_append] at same
    obtain ⟨shallow,_⟩ := shallow_of_firstFault a [] used [] same (Nat.zero_le _) (scanned [])
    exact ⟨a,used,rfl,rfl,inside,same,Nat.zero_add a.depth ▸ shallow⟩
  · cases read

theorem tokens_of_readStatement {tokens left : List Located} {s : Statement}
    (read : readStatement tokens = (.ok s,left)) :
    ∃ used, tokens = used ++ left ∧ (∀ l ∈ used, l.token ≠ .finish) ∧
      used.map Located.token = s.tokens ∧ s.Readable := by
  cases tokens with
  | nil => cases read
  | cons first rest =>
    obtain ⟨token,position⟩ := first
    rw [readStatement] at read
    split at read
    · next mark =>
      split at read
      · cases read
      · obtain ⟨a,used,rfl,rfl,inside,same,shallow⟩ := readable_of_readAs read
        have more : token ≠ .finish := by simp [mark]
        refine ⟨⟨token,position⟩ :: used,rfl,List.forall_mem_cons.mpr ⟨more,inside⟩,?_,
          ⟨shallow,by simp⟩⟩
        rw [List.map_cons,same,Statement.tokens,mark]
    · next plain =>
      obtain ⟨a,used,rfl,split,inside,same,shallow⟩ := readable_of_readAs read
      refine ⟨used,split,inside,same,⟨shallow,fun mark => plain ?_⟩⟩
      -- an atom that looked like the mark would have put it first
      rw [Statement.assertion.inj mark] at same
      exact token_of_singleton split same

theorem tokens_of_readStatements {tokens : List Located} {before statements : List Statement}
    (read : readStatements tokens before = .ok statements) :
    ∃ later, statements = before.reverse ++ later ∧ (∀ s ∈ later, s.Readable) ∧
      (content tokens).map Located.token = later.flatMap Statement.tokens := by
  fun_induction readStatements tokens before with
  | case1 tokens before ended =>
    cases read
    rw [content_of_atEnd ended]
    exact ⟨[],(List.append_nil _).symm,List.forall_mem_nil _,rfl⟩
  | case2 tokens before goesOn error left step => cases read
  | case3 tokens before goesOn s left step shorter ih =>
    obtain ⟨later,rfl,readable,same⟩ := ih read
    obtain ⟨used,rfl,inside,first,holds⟩ := tokens_of_readStatement step
    refine ⟨s :: later,?_,List.forall_mem_cons.mpr ⟨holds,readable⟩,?_⟩
    · rw [List.reverse_cons,List.append_assoc,List.singleton_append]
    · rw [content_append inside,List.map_append,first,same,List.flatMap_cons]

theorem parseProgram_of_cuts {text : String} {statements : List Statement}
    (cuts : Cuts text.toList (statements.flatMap Statement.tokens) [])
    (readable : ∀ s ∈ statements, s.Readable) : parseProgram text = .ok statements := by
  obtain ⟨located,position,cut,same⟩ := cuts.tokenize
  rw [parseProgram_of_tokens cut]
  exact readStatements_tokens statements readable located _ same rfl []

/-- A text that is read as a program is cut into the tokens of its statements, also in front of
separating characters. -/
theorem cuts_of_parseProgram {text : String} {statements : List Statement}
    (parsed : parseProgram text = .ok statements) :
    (∀ s ∈ statements, s.Readable) ∧ ∀ rest, Separates rest →
      Cuts text.toList (statements.flatMap Statement.tokens) rest := by
  cases cut : tokenize text with
  | error e => rw [parseProgram_of_error cut] at parsed; cases parsed
  | ok tokens =>
    rw [parseProgram_of_tokens cut] at parsed
    obtain ⟨later,rfl,readable,same⟩ := tokens_of_readStatements parsed
    obtain ⟨located,position,rfl,inside,cuts⟩ := cuts_of_tokens cut
    rw [List.reverse_nil,List.nil_append,content_finished inside] at same
    exact ⟨readable,same ▸ cuts⟩

theorem parseProgram_intercalate {texts : List String} {programs : List (List Statement)}
    (parsed : List.Forall₂ (fun text statements => parseProgram text = .ok statements)
      texts programs) :
    parseProgram ("\n".intercalate texts) = .ok programs.flatten := by
  suffices cuts : (∀ s ∈ programs.flatten, s.Readable) ∧
      Cuts ("\n".intercalate texts).toList (programs.flatten.flatMap Statement.tokens) [] from
    parseProgram_of_cuts cuts.2 cuts.1
  induction parsed with
  | nil => exact ⟨List.forall_mem_nil _,Cuts.nil []⟩
  | @cons text statements texts programs first others ih =>
    obtain ⟨readable,cuts⟩ := cuts_of_parseProgram first
    rw [List.flatten_cons,List.flatMap_append]
    refine ⟨List.forall_mem_append.mpr ⟨readable,ih.1⟩,?_⟩
    cases others with
    | nil =>
      have alone := (cuts [] (separates_blanks (List.forall_mem_nil _))).append (Cuts.nil [])
      rwa [List.append_nil] at alone
    | cons =>
      rw [String.intercalate_cons_cons,String.toList_append,String.toList_append,List.append_assoc]
      exact (cuts _ (separates_line _)).append ((Cuts.blank (by decide) _).append ih.2)

/-! ### A text without the blanks around it -/

/-- The text without the blanks around it, as an entry of a conversation is read. -/
def trimmed (text : String) : String := String.ofList (trimBlanks text.toList)

theorem Cuts.unique {text : String} {tokens others : List Token}
    (cuts : Cuts text.toList tokens []) (cutsToo : Cuts text.toList others []) :
    tokens = others := by
  obtain ⟨first,position,cut,rfl⟩ := cuts.tokenize
  obtain ⟨second,place,cutToo,rfl⟩ := cutsToo.tokenize
  obtain ⟨same,_⟩ := List.append_inj' (Except.ok.inj (cut.symm.trans cutToo)) rfl
  rw [same]

theorem Cuts.trimmed {text : String} {tokens : List Token} (cuts : Cuts text.toList tokens []) :
    Cuts (trimmed text).toList tokens [] := by
  obtain ⟨before,after,split,blankBefore,blankAfter⟩ := exists_eq_trimBlanks text.toList
  rw [Text.trimmed,String.toList_ofList]
  cases cut : Cursor.tokens ⟨trimBlanks text.toList,.start⟩ [] with
  | error e =>
    obtain ⟨_,position,whole,_⟩ := cuts.tokenize
    obtain ⟨located,start,_,skipped⟩ :=
      Cuts.blanks blankBefore (trimBlanks text.toList ++ after) .start
    obtain ⟨error,failed⟩ := tokens_append_error (separates_blanks blankAfter) cut start
      (located.reverse ++ [])
    rw [Text.tokenize,ofString,split,List.append_assoc,skipped,failed] at whole
    cases whole
  | ok found =>
    obtain ⟨located,_,_,_,core⟩ := cuts_of_tokens cut
    have inside := core (after ++ []) (by rw [List.append_nil]; exact separates_blanks blankAfter)
    have padded := (Cuts.blanks blankBefore _).append (inside.append (Cuts.blanks blankAfter []))
    rw [← List.append_assoc,← split,List.nil_append,List.append_nil] at padded
    rw [cuts.unique padded]
    exact core [] (separates_blanks (List.forall_mem_nil _))

theorem parseProgram_trimmed {text : String} {statements : List Statement}
    (parsed : parseProgram text = .ok statements) :
    parseProgram (trimmed text) = .ok statements := by
  obtain ⟨readable,cuts⟩ := cuts_of_parseProgram parsed
  exact parseProgram_of_cuts (cuts [] (separates_blanks (List.forall_mem_nil _))).trimmed readable

end Text
end AtomLogic
