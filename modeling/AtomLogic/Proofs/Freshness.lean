import AtomLogic.Proofs.Knowledge
import AtomLogic.Proofs.OneStep

/-! The variables of a copied rule are new. Names of copied variables get into answers, from there
into queries, and into the space when the body of a rule stores them, where they can be copied
again. But each of the numbers in them was handed out, so the next number is in none of them. -/

namespace AtomLogic

/-! ### Numbers in names -/

/-- The name ends in a semicolon and the number. -/
def EndsIn (number : Nat) (name : String) : Prop :=
  ∃ front : String, name = front ++ ";" ++ toString number

theorem Rule.endsIn_copyName (number : Nat) (name : String) :
    EndsIn number (Rule.copyName number name) := ⟨name,rfl⟩

theorem semicolon_not_mem_toString (number : Nat) : ';' ∉ (toString number).toList := by
  rw [Nat.toString_eq_repr,Nat.toList_repr]
  intro inside
  have digit := Nat.isDigit_of_mem_toDigits (by decide) (by decide) inside
  revert digit
  decide

theorem eq_of_append_cons_eq {α : Type} {c : α} {first second ends endsToo : List α}
    (absent : c ∉ ends) (absentToo : c ∉ endsToo)
    (same : first ++ c :: ends = second ++ c :: endsToo) : first = second ∧ ends = endsToo := by
  rcases List.append_eq_append_iff.mp same with ⟨more,rfl,split⟩ | ⟨more,rfl,split⟩
  · cases more with
    | nil => simpa using split
    | cons d more =>
      obtain ⟨_,rfl⟩ := List.cons.inj split
      exact absurd (List.mem_append_right more List.mem_cons_self) absent
  · cases more with
    | nil => simpa using split.symm
    | cons d more =>
      obtain ⟨_,rfl⟩ := List.cons.inj split
      exact absurd (List.mem_append_right more List.mem_cons_self) absentToo

theorem toString_toList_inj {first second : Nat}
    (same : (toString first).toList = (toString second).toList) : first = second := by
  simp only [Nat.toString_eq_repr,Nat.toList_repr] at same
  have read := congrArg (fun digits => Nat.ofDigitChars 10 digits 0) same
  simpa using read

/-- A copied name determines the name and the number. -/
theorem Rule.copyName_inj {first second : Nat} {name other : String} :
    Rule.copyName first name = Rule.copyName second other ↔ first = second ∧ name = other := by
  constructor
  · intro same
    have letters := congrArg String.toList same
    simp only [copyName,String.toList_append,List.append_assoc] at letters
    obtain ⟨sameName,sameNumber⟩ := eq_of_append_cons_eq
      (semicolon_not_mem_toString first) (semicolon_not_mem_toString second) letters
    exact ⟨toString_toList_inj sameNumber,String.toList_inj.mp sameName⟩
  · rintro ⟨rfl,rfl⟩
    rfl

/-- A plain name, or a copied one with a number below the bound. -/
inductive Numbered (plain : String → Prop) (bound : Nat) : String → Prop where
  | plain {name : String} : plain name → Numbered plain bound name
  | copy {name : String} {number : Nat} : Numbered plain bound name → number < bound →
      Numbered plain bound (Rule.copyName number name)

namespace Numbered

variable {plain : String → Prop} {bound more : Nat} {name : String}

theorem mono (numbered : Numbered plain bound name) (grown : bound ≤ more) :
    Numbered plain more name := by
  induction numbered with
  | plain isPlain => exact .plain isPlain
  | copy _ below ih => exact .copy ih (Nat.lt_of_lt_of_le below grown)

theorem not_endsIn (free : ∀ name, plain name → ';' ∉ name.toList)
    (numbered : Numbered plain bound name) : ¬EndsIn bound name := by
  rintro ⟨front,same⟩
  cases numbered with
  | plain isPlain =>
    refine free name isPlain ?_
    rw [same]
    exact Rule.semicolon_mem_copyName bound front
  | copy _ below =>
    obtain ⟨rfl,_⟩ := Rule.copyName_inj.mp same
    exact Nat.lt_irrefl _ below

end Numbered

/-- Any symbols, and names of variables that are plain or copied. -/
def Vocabulary.numbered (symbols plain : String → Prop)
    (truth : symbols "True") (operations : ∀ standard : Standard, symbols standard.name) :
    Vocabulary where
  symbols := symbols
  names := Numbered plain
  truth := truth
  conjunction := operations .conjunction
  implication := operations .implication
  grows _ _ numbered := numbered.mono (Nat.le_succ _)
  copies _ _ numbered := (numbered.mono (Nat.le_succ _)).copy (Nat.lt_succ_self _)

/-! ### Copies -/

theorem Rule.toAtom_copy (rule : Rule) (number : Nat) :
    (rule.copy number).toAtom = rule.toAtom.rename (Rule.copyName number) := by
  simp [toAtom,copy,Atom.rename]

/-- No variable of the query or of a stored atom ends in the number of the copy, so the copy
shares none with them, and two variables of the copy are the same if they were in the rule. -/
structure Trial.Fresh (trial : Trial) : Prop where
  query : ∀ name, trial.query.mentions name = true → ¬EndsIn trial.number name
  stored : ∀ a ∈ trial.world.space.toList, ∀ name, a.mentions name = true →
    ¬EndsIn trial.number name
  apart : ∀ name, trial.copy.toAtom.mentions name = true →
    trial.query.mentions name = false ∧
      ∀ a ∈ trial.world.space.toList, a.mentions name = false
  faithful : ∀ first second : Nat,
    trial.copy.toAtom.occurrences[first]? = trial.copy.toAtom.occurrences[second]? ↔
      trial.rule.toAtom.occurrences[first]? = trial.rule.toAtom.occurrences[second]?

theorem Trial.fresh {trial : Trial}
    (query : ∀ name, trial.query.mentions name = true → ¬EndsIn trial.number name)
    (stored : ∀ a ∈ trial.world.space.toList, ∀ name, a.mentions name = true →
      ¬EndsIn trial.number name) : trial.Fresh where
  query := query
  stored := stored
  apart := by
    intro name inside
    rw [copy,Rule.toAtom_copy,Atom.rename,Atom.mentions_instantiate] at inside
    obtain ⟨original,_,same⟩ := inside
    obtain rfl := (Atom.mentions_var _ _).mp same
    have ends := Rule.endsIn_copyName trial.number original
    constructor
    · exact Bool.eq_false_iff.mpr fun mentioned => query _ mentioned ends
    · exact fun a member => Bool.eq_false_iff.mpr fun mentioned => stored a member _ mentioned ends
  faithful := by
    intro first second
    rw [copy,Rule.toAtom_copy,Atom.occurrences_rename,List.getElem?_map,List.getElem?_map]
    exact (Option.map_injective (Rule.copyName_injective trial.number)).eq_iff

/-! ### Runs -/

/-- The variables of the atom have no semicolon in their names, or have been seen. -/
def Supplied (seen : List Atom) (a : Atom) : Prop :=
  ∀ name, a.mentions name = true → ';' ∉ name.toList ∨ ∃ b ∈ seen, b.mentions name = true

/-- Whatever calls were made before, each rule that a call tries is copied with fresh variables.
The atoms at the start have no semicolon in the names of their variables; a caller supplies no
others either, but may use again the variables of what it was shown. -/
theorem fresh_of_reached (limit tried : Nat) (atoms : List Atom)
    (plain : ∀ a ∈ atoms, ∀ name, a.mentions name = true → ';' ∉ name.toList)
    {world : World} {seen : List Atom}
    (reached : Reached limit Supplied { space := .ofList atoms, tried := tried } world seen)
    (call : Call) (supplied : Supplied seen call.atom) :
    Records (call.traced limit) (call.perform { limit := limit }) ∧
      ∀ trial ∈ (call.traced limit world).1, trial.Fresh := by
  let v := Vocabulary.numbered (fun _ => True) (';' ∉ ·.toList) trivial fun _ => trivial
  have spelled : ∀ tried seen a, (∀ b ∈ seen, v.Spells tried b) → Supplied seen a →
      v.Spells tried a := by
    intro tried seen a known supplied
    refine a.spelled_of_mentions fun name inside => ?_
    rcases supplied name inside with isPlain | ⟨b,member,mentioned⟩
    · exact .plain isPlain
    · exact (known b member).of_mentions mentioned
  have stocked : v.Stocks tried (Space.ofList atoms) := by
    intro a stored
    rw [Space.mem_ofList] at stored
    exact a.spelled_of_mentions fun name inside => .plain (plain a stored name inside)
  obtain ⟨stockedToo,known⟩ := reached.known spelled stocked
  have keeps := Vocabulary.Keeps.call limit (spelled _ _ _ known supplied)
  refine ⟨Records.call limit call,fun trial member => ?_⟩
  have knows := (keeps world stockedToo (Nat.le_refl _)).1 trial member
  have bounded {a : Atom} (spelled : v.Spells trial.number a) {name : String}
      (inside : a.mentions name = true) : ¬EndsIn trial.number name :=
    (spelled.of_mentions inside : Numbered _ _ name).not_endsIn fun _ => id
  exact Trial.fresh (fun name => bounded knows.query) fun a stored name => bounded (knows.space a stored)

private def leaking : List Atom := [.expr [.sym "b"],
  (Rule.mk (.expr [.sym "b"]) (.expr [.sym "f",.expr [.sym "g",.var "x"]])).toAtom]

private def leaked : Atom := .expr [.sym "f",.expr [.sym "g",.var "x;41"]]

private def afterLeak : World := { space := .ofList leaking, tried := 42 }

/-- The first answer has a copied variable in it, and is the next query. -/
theorem fresh_of_reached_leak :
    (∃ seen, Reached 2 Supplied { space := .ofList leaking, tried := 41 } afterLeak (leaked :: seen)) ∧
      ∃ trial ∈ ((Call.evaluate leaked).traced 2 afterLeak).1,
        trial.number = 42 ∧ trial.query = leaked ∧ trial.Fresh := by
  have plain : ∀ a ∈ leaking, ∀ name, a.mentions name = true → ';' ∉ name.toList := by
    simp [leaking,Rule.toAtom]
  have ran : (Call.evaluate (.expr [.sym "f",.var "q"])).perform { limit := 2 }
      { space := .ofList leaking, tried := 41 } =
        some ([leaked,.expr [.sym "g",.var "x;41"]],afterLeak) := by decide +kernel
  have supplied : Supplied [] (.expr [.sym "f",.var "q"]) := by simp [Supplied]
  have reached := (Reached.start : Reached 2 Supplied { space := .ofList leaking, tried := 41 } _ _).call
    (.evaluate _) supplied ran
  have tried : ((Call.evaluate leaked).traced 2 afterLeak).1 =
      [⟨afterLeak,⟨.expr [.sym "b"],.expr [.sym "f",.expr [.sym "g",.var "x"]]⟩,leaked⟩] := by
    decide +kernel
  obtain ⟨_,fresh⟩ := fresh_of_reached 2 41 leaking plain reached (.evaluate leaked)
    fun name inside => .inr ⟨leaked,List.mem_cons_self,inside⟩
  rw [tried] at fresh ⊢
  exact ⟨⟨_,reached⟩,_,List.mem_cons_self,rfl,rfl,fresh _ List.mem_cons_self⟩

end AtomLogic
