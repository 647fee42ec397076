import AtomLogic.Proofs.Knowledge

/-! Queries that change nothing. Goals are made of the query, of stored atoms and of the bodies of
rules by renaming and by putting in values, so a goal has no symbol that none of these has. Where the
symbols for storing and removing occur nowhere, no goal is ever headed by one of them. -/

namespace AtomLogic

/-- Neither the symbol for storing nor the one for removing occurs in the atom. -/
def Atom.IsQuiet (a : Atom) : Prop :=
  a.Spelled (fun name => name ≠ Standard.assertion.name ∧ name ≠ Standard.retraction.name)
    fun _ => True

namespace Vocabulary

/-- All symbols but those for storing and removing, and all names of variables. -/
def quiet : Vocabulary where
  symbols name := name ≠ Standard.assertion.name ∧ name ≠ Standard.retraction.name
  names _ _ := True
  truth := by
    rw [Atom.truth,Atom.spelled_sym]
    decide
  conjunction := by decide
  implication := by decide
  grows _ _ _ := trivial
  copies _ _ _ := trivial

/-- In this vocabulary nothing can be stored or removed, so a space lasts as it is. -/
theorem lasts_unchanged (space : Space) :
    quiet.Lasts fun tried later => quiet.Stocks tried later ∧ later = space where
  stocks held := held.1
  mono held grown := ⟨held.1.mono grown,held.2⟩
  add named := absurd rfl named.1
  remove named := absurd rfl named.2

end Vocabulary

/-- A query leaves the space as it was, if neither the query nor any stored atom has the symbol for
storing or the one for removing in it. -/
theorem space_of_quiet (limit : Nat) (chaining : Chaining) {query : Atom} {world later : World}
    {answers : Answers} (asked : query.IsQuiet) (stored : ∀ a ∈ world.space.toList, a.IsQuiet)
    (ran : Interpreter.evaluateWithin .standard limit chaining query world = some (answers,later)) :
    later.space = world.space := by
  have spelled : Vocabulary.quiet.Spells world.tried query := asked
  have keeps := Vocabulary.Keeps.evaluateWithin (Vocabulary.lasts_unchanged world.space) limit chaining
    spelled
  rw [← (Records.evaluateWithin limit chaining query).outcome] at ran
  obtain ⟨_,left⟩ := keeps world ⟨stored,rfl⟩ (Nat.le_refl _)
  obtain ⟨⟨_,same⟩,_⟩ := left answers later ran
  exact same

private def believed : List Atom := [.expr [.sym "human",.sym "socrates"],
  (Rule.mk (.expr [.sym "human",.var "x"]) (.expr [.sym "mortal",.var "x"])).toAtom]

private def wondering : Atom := .expr [.sym "and",.expr [.sym "mortal",.var "w"],
  .expr [.sym "not",.expr [.sym "mortal",.sym "zeus"]]]

/-- Both goals try the rule. -/
theorem space_of_quiet_wondering :
    wondering.IsQuiet ∧ (∀ a ∈ (Space.ofList believed).toList, a.IsQuiet) ∧
      ∃ answers later, Interpreter.evaluateWithin .standard 4 .enabled wondering
          { space := .ofList believed } = some (answers,later) ∧
        answers.map Prod.fst = [wondering.instantiate fun _ => .sym "socrates"] ∧
        later.tried = 2 ∧ later.space = .ofList believed := by
  have asked : wondering.IsQuiet := by
    simp [Atom.IsQuiet,wondering,Standard.name]
  have stored : ∀ a ∈ (Space.ofList believed).toList, a.IsQuiet := by
    simp [Space.mem_ofList,believed,Atom.IsQuiet,Rule.toAtom,Rule.symbol,Standard.name]
  obtain ⟨⟨answers,later⟩,ran,shown,tried⟩ : ∃ step,
      Interpreter.evaluateWithin .standard 4 .enabled wondering { space := .ofList believed } =
        some step ∧ step.1.map Prod.fst = [wondering.instantiate fun _ => .sym "socrates"] ∧
          step.2.tried = 2 :=
    ⟨_,Option.eq_some_of_isSome (by decide +kernel),by decide +kernel,by decide +kernel⟩
  exact ⟨asked,stored,answers,later,ran,shown,tried,space_of_quiet 4 .enabled asked stored ran⟩

end AtomLogic
