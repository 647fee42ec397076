import AtomLogic.Proofs.Concatenation
import AtomLogic.Proofs.Layout

/-! One text read as one atom, as atoms and as a program. The three agree on what a text holds and on
what is wrong with it. A program is the atoms of the text with its marks taken together with what
they ask, from left to right. -/

namespace AtomLogic.Text

/-- The statements of some atoms: a mark takes the next atom as a query, whatever that is. There are
none if nothing is left for a mark to take. -/
def regroup : List Atom → Option (List Statement)
  | [] => some []
  | a :: rest =>
    if a = .sym queryMark then
      match rest with
      | [] => none
      | b :: rest => (regroup rest).map (.query b :: ·)
    else (regroup rest).map (.assertion a :: ·)

theorem regroup_query (a : Atom) (rest : List Atom) :
    regroup (.sym queryMark :: a :: rest) = (regroup rest).map (.query a :: ·) := by
  simp [regroup]

theorem regroup_assertion {a : Atom} (plain : a ≠ .sym queryMark) (rest : List Atom) :
    regroup (a :: rest) = (regroup rest).map (.assertion a :: ·) := by
  cases rest with
  | nil => simp [regroup,plain]
  | cons b rest => simp [regroup,plain]

example : regroup [.sym "!",.sym "!",.sym "a"] = some [.query (.sym "!"),.assertion (.sym "a")] := by
  decide

/-! ### Reading statements and reading atoms -/

/-- What a step of a program reads: a mark with nothing behind it, a mark and a query, or an atom that is
not a mark. -/
inductive Steps : List Located → Prop where
  | dangling (position : Position) {rest : List Located} :
      atEnd rest = true → Steps (⟨.sym queryMark,position⟩ :: rest)
  | query (position : Position) {rest : List Located} :
      atEnd rest = false → Steps (⟨.sym queryMark,position⟩ :: rest)
  | assertion {tokens : List Located} :
      readStatement tokens = readAs .assertion tokens →
      (∀ left, readAtom [] tokens ≠ (.ok (.sym queryMark),left)) → Steps tokens

theorem steps_of_goesOn {tokens : List Located} (goesOn : atEnd tokens = false) : Steps tokens := by
  match tokens with
  | [] => cases goesOn
  | ⟨token,position⟩ :: rest =>
    by_cases mark : token = .sym queryMark
    · subst mark
      cases ended : atEnd rest with
      | true => exact .dangling position ended
      | false => exact .query position ended
    · refine .assertion (by rw [readStatement,if_neg mark]) fun left read => mark ?_
      obtain ⟨used,split,_,same,_⟩ := tokens_of_readAtom read
      exact token_of_singleton split same

section
variable {rest : List Located} (position : Position)

theorem readAtoms_mark (rest : List Located) (read : List Atom) :
    readAtoms (⟨.sym queryMark,position⟩ :: rest) read = readAtoms rest (.sym queryMark :: read) :=
  readAtoms_step rfl (readAtom_sym queryMark position [] rest) read

theorem readStatement_dangling (ended : atEnd rest = true) :
    readStatement (⟨.sym queryMark,position⟩ :: rest) = (.error (.danglingQuery position),rest) := by
  rw [readStatement,if_pos rfl,if_pos ended]

theorem readStatement_query (goesOn : atEnd rest = false) :
    readStatement (⟨.sym queryMark,position⟩ :: rest) = readAs .query rest := by
  rw [readStatement,if_pos rfl,if_neg (Bool.eq_false_iff.mp goesOn)]

end

section
variable {use : Atom → Statement} {tokens left : List Located}

theorem readAs_ok {a : Atom} (read : readAtom [] tokens = (.ok a,left)) :
    readAs use tokens = (.ok (use a),left) := by
  rw [readAs,read]

theorem readAs_error {error : ReadError} (failed : readAtom [] tokens = (.error error,left)) :
    readAs use tokens = (.error error,left) := by
  rw [readAs,failed]

end

/-- What the statements of some tokens are, if reading the atoms of the tokens gives this. -/
def Regroups (tokens : List Located) (before : List Statement) (read : List Atom) :
    Except ReadError (List Atom) → Prop
  | .error error => readStatements tokens before = .error error
  | .ok atoms => ∃ more, atoms = read.reverse ++ more ∧
      match regroup more with
      | some statements => readStatements tokens before = .ok (before.reverse ++ statements)
      | none => ∃ used position, content tokens = used ++ [⟨.sym queryMark,position⟩] ∧
          readStatements tokens before = .error (.danglingQuery position)

theorem Regroups.step {tokens left : List Located} {s : Statement} {read : List Atom}
    {before : List Statement} {result : Except ReadError (List Atom)} (atoms : List Atom)
    (goesOn : atEnd tokens = false) (step : readStatement tokens = (.ok s,left))
    (taken : ∀ more, regroup (atoms ++ more) = (regroup more).map (s :: ·))
    (later : Regroups left (s :: before) (atoms.reverse ++ read) result) :
    Regroups tokens before read result := by
  have same := readStatements_step goesOn step before
  cases result with
  | error error => exact same.trans later
  | ok found =>
    obtain ⟨more,rfl,given⟩ := later
    refine ⟨atoms ++ more,by simp,?_⟩
    rw [taken]
    cases statements : regroup more with
    | some statements =>
      rw [statements] at given
      exact same.trans (given.trans (by simp))
    | none =>
      rw [statements] at given
      obtain ⟨used,position,last,failed⟩ := given
      obtain ⟨first,rfl,inside,_⟩ := tokens_of_readStatement step
      refine ⟨first ++ used,position,?_,same.trans failed⟩
      rw [content_append inside,last,List.append_assoc]

/-- Reading statements gives what reading atoms gives, regrouped. -/
theorem regroups (tokens : List Located) (before : List Statement) (read : List Atom) :
    Regroups tokens before read (readAtoms tokens read).1 := by
  cases more : atEnd tokens with
  | true =>
    rw [readAtoms_ended more]
    exact ⟨[],by simp,by simp [regroup,readStatements_ended more]⟩
  | false =>
    cases steps_of_goesOn more with
    | @dangling position rest ended =>
      rw [readAtoms_mark,readAtoms_ended ended]
      refine ⟨[.sym queryMark],by simp,[],position,?_,?_⟩
      · rw [content,List.takeWhile_cons_of_pos rfl]
        exact congrArg _ (content_of_atEnd ended)
      · exact readStatements_error rfl (readStatement_dangling position ended) before
    | @query position rest goesOn =>
      have same := readStatement_query position goesOn
      rw [readAtoms_mark]
      rcases found : readAtom [] rest with ⟨error | a,left⟩
      · rw [readAtoms_error goesOn found]
        exact readStatements_error rfl (same.trans (readAs_error found)) before
      · have shorter := readAtom_shorter found
        rw [readAtoms_step goesOn found]
        exact .step [.sym queryMark,a] rfl (same.trans (readAs_ok found)) (regroup_query a)
          (regroups left (.query a :: before) _)
    | assertion same plain =>
      rcases found : readAtom [] tokens with ⟨error | a,left⟩
      · rw [readAtoms_error more found]
        exact readStatements_error more (same.trans (readAs_error found)) before
      · have shorter := readAtom_shorter found
        have noMark : a ≠ .sym queryMark := fun mark => plain left (mark ▸ found)
        rw [readAtoms_step more found]
        exact .step [a] more (same.trans (readAs_ok found)) (regroup_assertion noMark)
          (regroups left (.assertion a :: before) _)
termination_by tokens.length

/-! ### Reading one atom -/

theorem prefix_of_readAtoms {tokens : List Located} {before atoms : List Atom}
    (read : (readAtoms tokens before).1 = .ok atoms) : before.reverse <+: atoms := by
  fun_induction readAtoms tokens before with
  | case1 tokens before ended => cases read; exact List.prefix_rfl
  | case2 tokens before goesOn error left step => cases read
  | case3 tokens before goesOn a left step shorter ih =>
    have longer := ih read
    rw [List.reverse_cons] at longer
    exact (List.prefix_append _ _).trans longer

theorem length_of_readAtoms {tokens : List Located} (goesOn : atEnd tokens = false)
    {before atoms : List Atom} (read : (readAtoms tokens before).1 = .ok atoms) :
    before.length < atoms.length := by
  rcases step : readAtom [] tokens with ⟨error | a,left⟩
  · rw [readAtoms_error goesOn step] at read
    cases read
  · rw [readAtoms_step goesOn step] at read
    have shorter := (prefix_of_readAtoms read).length_le
    rwa [List.length_reverse] at shorter

theorem readAtom_ended {tokens : List Located} (ended : atEnd tokens = true) :
    ∃ left, readAtom [] tokens = (.error .emptyInput,left) := by
  match tokens with
  | [] => exact ⟨[],rfl⟩
  | ⟨token,position⟩ :: rest =>
    obtain rfl : token = .finish := beq_iff_eq.mp ended
    exact ⟨_,rfl⟩

/-- Reading an atom finds no input only where there is none. -/
theorem atEnd_of_emptyInput {stack : List Frame} {tokens left : List Located}
    (failed : readAtom stack tokens = (.error .emptyInput,left)) :
    stack = [] ∧ atEnd tokens = true := by
  fun_induction readAtom stack tokens with
  | case1 stack | case2 position rest stack =>
    cases stack with
    | nil => exact ⟨rfl,rfl⟩
    | cons frame stack => cases failed
  | case3 position rest stack room ih => exact absurd (ih failed).1 (List.cons_ne_nil _ _)
  | case4 | case5 | case6 | case8 | case10 => cases failed
  | case7 position rest frame outer stack ih => exact absurd (ih failed).1 (List.cons_ne_nil _ _)
  | case9 position rest name frame stack ih | case11 position rest name frame stack ih =>
    exact absurd (ih failed).1 (List.cons_ne_nil _ _)

theorem tokenize_ne_emptyInput (text : String) : tokenize text ≠ .error .emptyInput := by
  intro failed
  obtain ⟨_,_,_,_,same⟩ := tokenize_eq_error_iff.mp failed
  cases same

section
variable {text : String} {tokens left : List Located} (cut : tokenize text = .ok tokens)
include cut

theorem parseAtom_error {error : ReadError} (failed : readAtom [] tokens = (.error error,left)) :
    parseAtom text = .error error := by
  rw [parseAtom,cut]
  simp only [bind,Except.bind,failed]

theorem parseAtom_ended {a : Atom} (read : readAtom [] tokens = (.ok a,left))
    (ended : atEnd left = true) : parseAtom text = .ok a := by
  rw [parseAtom,cut]
  simp only [bind,Except.bind,read]
  split
  · rfl
  · rfl
  · cases ended
  · next first _ last _ => exact absurd (beq_iff_eq.mp ended) last

theorem parseAtom_goesOn {a : Atom} (read : readAtom [] tokens = (.ok a,left))
    (goesOn : atEnd left = false) : ∃ error, parseAtom text = .error error ∧ error ≠ .emptyInput := by
  rw [parseAtom,cut]
  simp only [bind,Except.bind,read]
  split
  · cases goesOn
  · cases goesOn
  · exact ⟨_,rfl,by simp⟩
  · exact ⟨_,rfl,by simp⟩

end

/-- A text is one atom if it is read as atoms and there is one, and it is empty if there are none. -/
theorem parseAtom_iff_parseAtoms (text : String) :
    (∀ a, parseAtom text = .ok a ↔ parseAtoms text = .ok [a]) ∧
      (parseAtom text = .error .emptyInput ↔ parseAtoms text = .ok []) := by
  cases cut : tokenize text with
  | error error =>
    have proper : error ≠ .emptyInput := fun same => tokenize_ne_emptyInput text (same ▸ cut)
    have alone : parseAtom text = .error error := by rw [parseAtom,cut]; rfl
    have whole := parseAtoms_of_error cut
    simp [alone,whole,proper]
  | ok tokens =>
    have whole := parseAtoms_of_tokens cut
    cases more : atEnd tokens with
    | true =>
      obtain ⟨left,read⟩ := readAtom_ended more
      have alone := parseAtom_error cut read
      rw [readAtoms_ended more] at whole
      simp [alone,whole]
    | false =>
      rcases read : readAtom [] tokens with ⟨error | b,left⟩
      · have alone := parseAtom_error cut read
        rw [readAtoms_error more read] at whole
        have proper : error ≠ .emptyInput := by
          rintro rfl
          exact Bool.false_ne_true (more.symm.trans (atEnd_of_emptyInput read).2)
        simp [alone,whole,proper]
      · rw [readAtoms_step more read] at whole
        cases further : atEnd left with
        | true =>
          have alone := parseAtom_ended cut read further
          rw [readAtoms_ended further] at whole
          simp [alone,whole]
        | false =>
          obtain ⟨error,alone,proper⟩ := parseAtom_goesOn cut read further
          have several : ∀ atoms, parseAtoms text = .ok atoms → 1 < atoms.length :=
            fun atoms found => length_of_readAtoms further (whole.symm.trans found)
          have notOne : ∀ a, parseAtoms text ≠ .ok [a] := fun a one => by simpa using several _ one
          have notNone : parseAtoms text ≠ .ok [] := fun none => by simpa using several _ none
          simp [alone,proper,notOne,notNone]

/-- One text read in three ways: as one atom it is what it is as atoms, if that is one, and it is
empty as an atom if there is none. A program fails as the atoms do. It is the atoms regrouped, and a
mark that nothing is left for is the last token of the text and what the error names. -/
theorem readings_agree (text : String) :
    (∀ a, parseAtom text = .ok a ↔ parseAtoms text = .ok [a]) ∧
    (parseAtom text = .error .emptyInput ↔ parseAtoms text = .ok []) ∧
    (∀ error, parseAtoms text = .error error → parseProgram text = .error error) ∧
    ∀ atoms, parseAtoms text = .ok atoms →
      (∀ statements, regroup atoms = some statements → parseProgram text = .ok statements) ∧
      (regroup atoms = none → ∃ before position last,
        tokenize text = .ok (before ++ [⟨.sym queryMark,position⟩,⟨.finish,last⟩]) ∧
          parseProgram text = .error (.danglingQuery position)) := by
  refine ⟨(parseAtom_iff_parseAtoms text).1,(parseAtom_iff_parseAtoms text).2,?_⟩
  cases cut : tokenize text with
  | error error =>
    have whole := parseAtoms_of_error cut
    have program := parseProgram_of_error cut
    simp [whole,program]
  | ok tokens =>
    have whole := parseAtoms_of_tokens cut
    have program := parseProgram_of_tokens cut
    obtain ⟨located,last,rfl,inside,_⟩ := Cursor.cuts_of_tokens cut
    have regrouped := regroups (located ++ [⟨.finish,last⟩]) [] []
    rw [List.reverse_nil,List.nil_append] at whole program ⊢
    rw [← whole] at regrouped
    refine ⟨fun error failed => ?_,fun atoms read => ?_⟩
    · rw [failed] at regrouped
      exact program.trans regrouped
    · rw [read] at regrouped
      obtain ⟨more,rfl,given⟩ := regrouped
      refine ⟨fun statements taken => ?_,fun dangling => ?_⟩
      · rw [taken] at given
        exact program.trans given
      · rw [dangling] at given
        obtain ⟨used,position,marked,failed⟩ := given
        rw [content_finished inside] at marked
        exact ⟨used,position,last,by rw [marked]; simp,program.trans failed⟩

/-- The mark that asks for a mark leaves the third one with nothing. -/
theorem readings_agree_asking :
    parseAtoms "! ! a" = .ok [.sym "!",.sym "!",.sym "a"] ∧
    parseProgram "! ! a" = .ok [.query (.sym "!"),.assertion (.sym "a")] ∧
    parseAtoms "! ! !" = .ok [.sym "!",.sym "!",.sym "!"] ∧
    (∃ position, parseProgram "! ! !" = .error (.danglingQuery position)) ∧
    parseAtoms "! )" = .error (.unmatchedClose ⟨1,3⟩) ∧
    parseProgram "! )" = .error (.unmatchedClose ⟨1,3⟩) := by
  have asked : parseAtoms "! ! a" = .ok [.sym "!",.sym "!",.sym "a"] := by decide +kernel
  have left : parseAtoms "! ! !" = .ok [.sym "!",.sym "!",.sym "!"] := by decide +kernel
  have failed : parseAtoms "! )" = .error (.unmatchedClose ⟨1,3⟩) := by decide +kernel
  refine ⟨asked,((readings_agree _).2.2.2 _ asked).1 _ (by decide),left,?_,failed,
    (readings_agree _).2.2.1 _ failed⟩
  obtain ⟨_,position,_,_,dangling⟩ := ((readings_agree _).2.2.2 _ left).2 (by decide)
  exact ⟨position,dangling⟩

end AtomLogic.Text
