import AtomLogic.Session
import AtomLogic.Proofs.Freshness
import AtomLogic.Proofs.ReadBack

/-! What a program that was read from text answers and stores. All of it can be written and read
back, except for the variables of copied rules: a number behind a semicolon keeps them apart from
whatever is read, so no text stands for them. -/

namespace AtomLogic
open Text

/-- Names that can be written, and those of copied variables that could be before. -/
def writing : Vocabulary :=
  .numbered (isSymbolName · = true) (isName · = true) (by decide) fun standard => by
    cases standard <;> decide

theorem semicolon_not_mem_of_isName {name : String} (readable : isName name = true) :
    ';' ∉ name.toList := by
  intro inside
  have letter := ((isName_iff name).mp readable).2 ';' inside
  exact ((isNameChar_iff ';').mp letter).2.2.2 rfl

theorem Numbered.isName_iff {bound : Nat} {name : String}
    (numbered : Numbered (isName · = true) bound name) :
    isName name = true ↔ ';' ∉ name.toList := by
  refine ⟨semicolon_not_mem_of_isName,fun free => ?_⟩
  cases numbered with
  | plain readable => exact readable
  | copy _ _ => exact absurd (Rule.semicolon_mem_copyName _ _) free

theorem Atom.spells_of_isWritten {a : Atom} (written : a.isWritten = true) (tried : Nat) :
    writing.Spells tried a := by
  induction a with
  | sym symbol => exact written
  | var name => exact .plain written
  | expr children ih =>
    rw [isWritten,areWritten_iff] at written
    exact (Vocabulary.spells_expr children).mpr fun child member => ih child member (written child member)

theorem Vocabulary.Spells.isWritten_iff {tried : Nat} {a : Atom} (spelled : writing.Spells tried a) :
    a.isWritten = true ↔ ∀ name, a.mentions name = true → ';' ∉ name.toList := by
  induction a with
  | sym symbol => exact iff_of_true spelled nofun
  | var name =>
    have numbered : Numbered (isName · = true) tried name := spelled
    rw [Atom.isWritten,numbered.isName_iff]
    simp
  | expr children ih =>
    rw [Vocabulary.spells_expr] at spelled
    rw [Atom.isWritten,Atom.areWritten_iff]
    constructor
    · intro written name inside
      obtain ⟨child,member,inside⟩ := (Atom.mentions_expr _ _).mp inside
      exact (ih child member (spelled child member)).mp (written child member) name inside
    · intro free child member
      refine (ih child member (spelled child member)).mpr fun name inside => ?_
      exact free name ((Atom.mentions_expr _ _).mpr ⟨child,member,inside⟩)

/-! ### Runs of programs -/

def Text.Statement.call : Statement → Call
  | .assertion a => .store a
  | .query a => .evaluate a

theorem Text.Statement.atom_call (statement : Statement) : statement.call.atom = statement.atom := by
  cases statement <;> rfl

theorem perform_of_evaluate {interpreter : Interpreter} {query : Atom} {world later : World}
    {answers : List Atom} (ran : interpreter.evaluate query world = some (answers,later)) :
    ∃ shown, (Call.evaluate query).perform interpreter world = some (shown,later) ∧
      ∀ a ∈ answers, a ∈ shown := by
  change (interpreter.answers query world).bind _ = _ at ran
  cases found : interpreter.answers query world with
  | none =>
    rw [found] at ran
    cases ran
  | some step =>
    rw [found] at ran
    cases ran
    refine ⟨Call.shown step.1,?_,fun a member => ?_⟩
    · change (interpreter.answers query world).bind _ = _
      rw [found]
      rfl
    · obtain ⟨answer,among,rfl⟩ := List.mem_map.mp member
      exact List.mem_flatMap.mpr ⟨answer,among,List.mem_cons_self⟩

theorem perform_of_runStatement {session : Session} {statement : Statement} {world later : World}
    {lines : List String} (ran : session.runStatement statement world = some (lines,later)) :
    ∃ shown, statement.call.perform session.interpreter world = some (shown,later) := by
  cases statement with
  | assertion a =>
    cases ran
    exact ⟨[],rfl⟩
  | query query =>
    change (session.interpreter.evaluate query world).bind _ = _ at ran
    cases found : session.interpreter.evaluate query world with
    | none =>
      rw [found] at ran
      cases ran
    | some step =>
      rw [found] at ran
      cases ran
      obtain ⟨shown,performed,_⟩ := perform_of_evaluate found
      exact ⟨shown,performed⟩

/-- Atoms that can be written. -/
def Written (_ : List Atom) (a : Atom) : Prop := a.isWritten = true

theorem reached_of_runStatements {limit maxResults : Nat} {first : World}
    {statements : List Statement} (written : ∀ s ∈ statements, s.atom.isWritten = true)
    {world later : World} {seen : List Atom} (reached : Reached limit Written first world seen)
    {lines : List String}
    (ran : (⟨{ limit := limit },maxResults⟩ : Session).runStatements statements world =
      some (lines,later)) : ∃ seen, Reached limit Written first later seen := by
  induction statements generalizing world seen lines with
  | nil =>
    cases ran
    exact ⟨seen,reached⟩
  | cons statement statements ih =>
    rw [List.forall_mem_cons,← statement.atom_call] at written
    change ((Session.runStatement _ statement world).bind fun step =>
      (Session.runStatements _ statements step.2).bind _) = _ at ran
    obtain ⟨⟨first,middle⟩,ranFirst,ran⟩ := Option.bind_eq_some_iff.mp ran
    obtain ⟨⟨others,last⟩,ranOthers,ran⟩ := Option.bind_eq_some_iff.mp ran
    cases ran
    obtain ⟨shown,performed⟩ := perform_of_runStatement ranFirst
    exact ih written.2 (reached.call _ written.1 performed) ranOthers

theorem reached_of_runText {limit maxResults : Nat} {program : String} {world later : World}
    {lines : List String}
    (ran : (⟨{ limit := limit },maxResults⟩ : Session).runText program world =
      some (.ok lines,later)) : ∃ seen, Reached limit Written world later seen := by
  rw [Session.runText] at ran
  cases parsed : parseProgram program with
  | error e =>
    rw [parsed] at ran
    cases ran
  | ok statements =>
    rw [parsed] at ran
    obtain ⟨⟨found,last⟩,ran,same⟩ := Option.bind_eq_some_iff.mp ran
    cases same
    exact reached_of_runStatements
      (fun s member => (representable_of_parseProgram parsed s member).written) .start ran

theorem Reached.written {limit tried : Nat} {world : World} {seen : List Atom}
    (reached : Reached limit Written { tried := tried } world seen) :
    writing.Stocks world.tried world.space ∧ ∀ a ∈ seen, writing.Spells world.tried a :=
  reached.known (fun tried _ a _ written => a.spells_of_isWritten written tried)
    (List.forall_mem_nil _)

/-- A program read from text runs on the empty space, and then a query read from text is
evaluated. What is answered and what is stored reads back, unless a variable of a copied rule is
left in it. -/
theorem parseAtom_text_iff_of_runText (limit maxResults tried : Nat) (program text : String)
    {lines : List String} {middle : World}
    (ran : (⟨{ limit := limit },maxResults⟩ : Session).runText program { tried := tried } =
      some (.ok lines,middle))
    {query : Atom} (parsed : parseAtom text = .ok query) {answers : List Atom} {later : World}
    (evaluated : ({ limit := limit } : Interpreter).evaluate query middle = some (answers,later))
    (a : Atom) (found : a ∈ answers ∨ a ∈ middle.space.toList ∨ a ∈ later.space.toList)
    (shallow : a.depth ≤ maximalDepth) :
    (parseAtom a.text = .ok a ↔ ∀ name, a.mentions name = true → ';' ∉ name.toList) ∧
      ∀ name, a.mentions name = true → Numbered (isName · = true) later.tried name := by
  obtain ⟨seen,reached⟩ := reached_of_runText ran
  obtain ⟨shown,performed,part⟩ := perform_of_evaluate evaluated
  have written := (representable_of_parseAtom parsed).written
  have reachedToo := reached.call (.evaluate query) written performed
  have grown : middle.tried ≤ later.tried := by
    rw [(Records.call limit (.evaluate query)).counted middle shown later performed]
    exact Nat.le_add_right _ _
  have spelled : writing.Spells later.tried a := by
    rcases found with answer | stored | stored
    · exact reachedToo.written.2 a (List.mem_append_left _ (part a answer))
    · exact (reached.written.1 a stored).mono grown
    · exact reachedToo.written.1 a stored
  refine ⟨?_,fun name => spelled.of_mentions⟩
  rw [← spelled.isWritten_iff]
  exact ⟨fun back => (representable_of_parseAtom back).written,fun isWritten =>
    parseAtom_text ⟨isWritten,shallow⟩⟩

theorem parseAtom_of_text {text : String} {a : Atom} (same : a.text = text)
    (written : a.isWritten = true) (shallow : a.depth ≤ maximalDepth) : parseAtom text = .ok a :=
  same ▸ parseAtom_text ⟨written,shallow⟩

/-- A program of atoms, written one to a line, runs as the atoms do. -/
theorem runText_lines {session : Session} {atoms : List Atom}
    (readable : ∀ a ∈ atoms, (a.isWritten = true ∧ a.depth ≤ maximalDepth) ∧ a ≠ .sym queryMark)
    {world later : World} {lines : List String}
    (ran : session.runStatements (atoms.map .assertion) world = some (lines,later)) :
    session.runText (String.join (atoms.map fun a => a.text ++ "\n")) world =
      some (.ok lines,later) := by
  have parsed := parseProgram_lines
    (fun a member => ⟨(readable a member).1.1,(readable a member).1.2⟩)
    (fun a member => (readable a member).2)
  rw [Session.runText,parsed]
  change (session.runStatements _ world).bind _ = _
  rw [ran]
  rfl

private def mortals : List Atom := [.expr [.sym "Human",.sym "Socrates"],
  (Rule.mk (.expr [.sym "Human",.var "x"]) (.expr [.sym "Mortal",.var "x"])).toAtom]

theorem parseAtom_text_iff_of_runText_mortal :
    ∃ middle later,
      (⟨{},0⟩ : Session).runText "(Human Socrates)\n(implies (Human $x) (Mortal $x))\n" {} =
          some (.ok [],middle) ∧
        parseAtom "(Mortal $who)" = .ok (.expr [.sym "Mortal",.var "who"]) ∧
        ({} : Interpreter).evaluate (.expr [.sym "Mortal",.var "who"]) middle =
          some ([.expr [.sym "Mortal",.sym "Socrates"]],later) ∧
        parseAtom (Atom.expr [.sym "Mortal",.sym "Socrates"]).text =
          .ok (.expr [.sym "Mortal",.sym "Socrates"]) := by
  have text : "(Human Socrates)\n(implies (Human $x) (Mortal $x))\n" =
      String.join (mortals.map fun a => a.text ++ "\n") := by decide +kernel
  have ran : (⟨{},0⟩ : Session).runText "(Human Socrates)\n(implies (Human $x) (Mortal $x))\n" {} =
      some (.ok [],{ space := .ofList mortals }) := by
    rw [text]
    exact runText_lines (by decide +kernel) (by decide +kernel)
  have parsed : parseAtom "(Mortal $who)" = .ok (.expr [.sym "Mortal",.var "who"]) :=
    parseAtom_of_text (by decide) (by decide) (by decide)
  have evaluated : ({} : Interpreter).evaluate (.expr [.sym "Mortal",.var "who"])
      { space := .ofList mortals } =
        some ([.expr [.sym "Mortal",.sym "Socrates"]],{ space := .ofList mortals, tried := 1 }) := by
    decide +kernel
  obtain ⟨back,_⟩ := parseAtom_text_iff_of_runText 10000 0 0 _ _ ran parsed evaluated _
    (.inl List.mem_cons_self) (by decide)
  exact ⟨_,_,ran,parsed,evaluated,back.mpr (by simp)⟩

private def leakingProgram : List Atom := [.expr [.sym "b"],
  (Rule.mk (.expr [.sym "b"]) (.expr [.sym "f",.expr [.sym "g",.var "x"]])).toAtom]

/-- The variable of a copied rule is left in an answer, which does not read back. -/
theorem parseAtom_text_ne_of_copied_variable :
    ∃ middle later,
      (⟨{},0⟩ : Session).runText "(b)\n(implies (b) (f (g $x)))\n" {} = some (.ok [],middle) ∧
        parseAtom "(f $q)" = .ok (.expr [.sym "f",.var "q"]) ∧
        ({} : Interpreter).evaluate (.expr [.sym "f",.var "q"]) middle =
          some ([.expr [.sym "f",.expr [.sym "g",.var "x;0"]]],later) ∧
        (Atom.expr [.sym "f",.expr [.sym "g",.var "x;0"]]).depth ≤ maximalDepth ∧
        parseAtom (Atom.expr [.sym "f",.expr [.sym "g",.var "x;0"]]).text ≠
          .ok (.expr [.sym "f",.expr [.sym "g",.var "x;0"]]) := by
  have text : "(b)\n(implies (b) (f (g $x)))\n" =
      String.join (leakingProgram.map fun a => a.text ++ "\n") := by decide +kernel
  have ran : (⟨{},0⟩ : Session).runText "(b)\n(implies (b) (f (g $x)))\n" {} =
      some (.ok [],{ space := .ofList leakingProgram }) := by
    rw [text]
    exact runText_lines (by decide +kernel) (by decide +kernel)
  have evaluated : ({} : Interpreter).evaluate (.expr [.sym "f",.var "q"])
      { space := .ofList leakingProgram } = some ([.expr [.sym "f",.expr [.sym "g",.var "x;0"]]],
        { space := .ofList leakingProgram, tried := 1 }) := by decide +kernel
  have parsed : parseAtom "(f $q)" = .ok (.expr [.sym "f",.var "q"]) :=
    parseAtom_of_text (by decide) (by decide) (by decide)
  refine ⟨_,_,ran,parsed,evaluated,by decide,fun back => ?_⟩
  have written := (representable_of_parseAtom back).written
  revert written
  decide

end AtomLogic
