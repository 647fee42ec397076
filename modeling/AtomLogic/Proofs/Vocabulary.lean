import AtomLogic.Operation.Standard
import AtomLogic.Proofs.Composition
import AtomLogic.Proofs.SpaceSteps

/-! Names that occur in atoms. Unification, substitution and queries take all names of their
results from what they are given; the only new names are those in the copies of rules, which
depend on how many rules have been tried before. -/

namespace AtomLogic

namespace Atom

mutual
/-- The symbols and the variables of the atom have names of these kinds. -/
def Spelled (symbols names : String → Prop) : Atom → Prop
  | .sym name => symbols name
  | .var name => names name
  | .expr children => AllSpelled symbols names children

def AllSpelled (symbols names : String → Prop) : List Atom → Prop
  | [] => True
  | a :: as => a.Spelled symbols names ∧ AllSpelled symbols names as
end

variable {symbols names : String → Prop}

@[simp] theorem spelled_sym (name : String) :
    (sym name).Spelled symbols names ↔ symbols name := Iff.rfl

@[simp] theorem spelled_var (name : String) :
    (var name).Spelled symbols names ↔ names name := Iff.rfl

@[simp] theorem spelled_expr (children : List Atom) :
    (expr children).Spelled symbols names ↔
      ∀ child ∈ children, child.Spelled symbols names := by
  rw [Spelled]
  induction children with
  | nil => simp [AllSpelled]
  | cons child children ih => simp [AllSpelled,ih]

theorem Spelled.instantiate {a : Atom} (spelled : a.Spelled symbols names)
    {others : String → Prop} {values : String → Atom}
    (each : ∀ name, names name → (values name).Spelled symbols others) :
    (a.instantiate values).Spelled symbols others := by
  induction a with
  | sym symbol => exact spelled
  | var name => exact each name spelled
  | expr children ih =>
    rw [spelled_expr] at spelled
    rw [instantiate_expr,spelled_expr,List.forall_mem_map]
    exact fun child member => ih child member (spelled child member)

theorem Spelled.mono {a : Atom} (spelled : a.Spelled symbols names) {others : String → Prop}
    (more : ∀ name, names name → others name) : a.Spelled symbols others := by
  rw [← instantiate_self a]
  exact spelled.instantiate more

theorem Spelled.of_mentions {a : Atom} (spelled : a.Spelled symbols names) {name : String}
    (inside : a.mentions name = true) : names name := by
  induction a with
  | sym symbol => cases inside
  | var other =>
    obtain rfl := (mentions_var _ _).mp inside
    exact spelled
  | expr children ih =>
    obtain ⟨child,member,inside⟩ := (mentions_expr _ _).mp inside
    exact ih child member ((spelled_expr children).mp spelled child member) inside

/-- Of the symbols nothing is asked, so the names of the variables decide. -/
theorem spelled_of_mentions (a : Atom)
    (each : ∀ name, a.mentions name = true → names name) :
    a.Spelled (fun _ => True) names := by
  induction a with
  | sym symbol => trivial
  | var name => exact each name ((mentions_var _ _).mpr rfl)
  | expr children ih =>
    rw [spelled_expr]
    intro child member
    exact ih child member fun name inside => each name ((mentions_expr _ _).mpr ⟨child,member,inside⟩)

end Atom

/-- Names for symbols, and names for variables once some number of rules have been tried. The
names in the next copy of a rule are there after one more try. -/
structure Vocabulary where
  symbols : String → Prop
  names : Nat → String → Prop
  truth : Atom.truth.Spelled symbols fun _ => False
  conjunction : symbols Standard.conjunction.name
  implication : symbols Rule.symbol
  grows : ∀ tried name, names tried name → names (tried + 1) name
  copies : ∀ tried name, names tried name → names (tried + 1) (Rule.copyName tried name)

namespace Vocabulary

variable (v : Vocabulary)

def Spells (tried : Nat) (a : Atom) : Prop := a.Spelled v.symbols (v.names tried)

/-- The values that the substitution binds are spelled. -/
def Carries (tried : Nat) (s : Substitution) : Prop :=
  ∀ binding ∈ s.bindings, v.Spells tried binding.2

def Answered (tried : Nat) (answers : Answers) : Prop :=
  ∀ answer ∈ answers, v.Spells tried answer.1 ∧ v.Carries tried answer.2

def Stocks (tried : Nat) (space : Space) : Prop := ∀ a ∈ space.toList, v.Spells tried a

variable {v} {tried later : Nat} {a b : Atom} {s t : Substitution}

theorem names_mono (grown : tried ≤ later) {name : String} (known : v.names tried name) :
    v.names later name := by
  induction grown with
  | refl => exact known
  | step _ ih => exact v.grows _ name ih

@[simp] theorem spells_expr (children : List Atom) :
    v.Spells tried (.expr children) ↔ ∀ child ∈ children, v.Spells tried child :=
  Atom.spelled_expr children

theorem spells_truth : v.Spells tried .truth := v.truth

theorem spells_unit : v.Spells tried .unit := (spells_expr []).mpr (List.forall_mem_nil _)

theorem spells_conjunction : v.Spells tried (.sym Standard.conjunction.name) := v.conjunction

theorem Spells.mono (spelled : v.Spells tried a) (grown : tried ≤ later) : v.Spells later a :=
  Atom.Spelled.mono spelled fun _ => names_mono grown

theorem Carries.mono (carried : v.Carries tried s) (grown : tried ≤ later) : v.Carries later s :=
  fun binding member => (carried binding member).mono grown

theorem Answered.mono {answers : Answers} (answered : v.Answered tried answers)
    (grown : tried ≤ later) : v.Answered later answers :=
  fun answer member => ⟨(answered answer member).1.mono grown,(answered answer member).2.mono grown⟩

theorem Stocks.mono {space : Space} (stocked : v.Stocks tried space) (grown : tried ≤ later) :
    v.Stocks later space :=
  fun a stored => (stocked a stored).mono grown

theorem Spells.arguments (spelled : v.Spells tried a) :
    ∀ argument ∈ a.arguments, v.Spells tried argument := by
  intro argument member
  unfold Atom.arguments at member
  split at member
  · exact (spells_expr _).mp spelled argument (List.mem_cons_of_mem _ member)
  · cases member

/-- The head of what is spelled is a symbol of the vocabulary. -/
theorem Spells.operation (spelled : v.Spells tried a) {standard : Standard}
    (headed : a.head?.bind Standard.ofName? = some standard) : v.symbols standard.name := by
  obtain ⟨name,head,named⟩ := Option.bind_eq_some_iff.mp headed
  obtain ⟨arguments,rfl⟩ := Atom.eq_of_head? head
  rw [Standard.ofName?] at named
  have same := List.find?_some named
  rw [eq_of_beq same]
  exact (spells_expr _).mp spelled _ List.mem_cons_self

/-- A rule that is spelled has a copy that is spelled after one more try. -/
theorem Spells.rename (spelled : v.Spells tried a) (grown : tried ≤ later) :
    v.Spells (later + 1) (a.rename (Rule.copyName later)) :=
  (spelled.mono grown).instantiate fun name known => v.copies later name known

theorem spells_toAtom (rule : Rule) :
    v.Spells tried rule.toAtom ↔ v.Spells tried rule.body ∧ v.Spells tried rule.head := by
  have symbol : v.Spells tried (.sym Rule.symbol) := v.implication
  simp [Rule.toAtom,symbol]

/-! ### Substitutions -/

theorem carries_empty : v.Carries tried ∅ := List.forall_mem_nil _

theorem Carries.value (carried : v.Carries tried s) {name : String}
    (known : v.names tried name) : v.Spells tried (s.value name) := by
  rcases s.value_cases name with binding | ⟨_,itself⟩
  · exact carried _ binding
  · rw [itself]
    exact known

theorem Carries.apply (carried : v.Carries tried s) (spelled : v.Spells tried a) :
    v.Spells tried (s.apply a) :=
  spelled.instantiate fun _ => carried.value

theorem Carries.resolve (carried : v.Carries tried s) (spelled : v.Spells tried a) :
    v.Spells tried (s.resolve a) := by
  cases a with
  | sym symbol => exact spelled
  | var name => exact carried.value spelled
  | expr children => exact spelled

theorem carries_single {name : String} (spelled : v.Spells tried a) :
    v.Carries tried (.single name a) := List.forall_mem_singleton.mpr spelled

theorem Carries.mapValues (carried : v.Carries tried s) {change : Atom → Atom}
    (changed : ∀ a, v.Spells tried a → v.Spells tried (change a)) :
    v.Carries tried (s.mapValues change) :=
  List.forall_mem_map.mpr fun binding member => changed _ (carried binding member)

theorem Carries.bind? (carried : v.Carries tried s) {name : String} (spelled : v.Spells tried a)
    (bound : s.bind? name a = some t) : v.Carries tried t := by
  have value := carried.apply spelled
  rw [Substitution.bind?] at bound
  split at bound
  · split at bound <;> cases bound
    exact carried
  · split at bound
    · cases bound
      exact carried
    · split at bound <;> cases bound
      refine List.forall_mem_append.mpr ⟨?_,List.forall_mem_singleton.mpr value⟩
      exact carried.mapValues fun _ => (carries_single value).apply

theorem Carries.solve? (carried : v.Carries tried s) {name : String} (spelled : v.Spells tried a)
    (solved : s.solve? name a = some t) : v.Carries tried t := by
  rw [Substitution.solve?] at solved
  split at solved
  · cases solved
  · exact carried.bind? (carried.apply spelled) solved

theorem Carries.compose (carried : v.Carries tried s) (carriedToo : v.Carries tried t) :
    v.Carries tried (s.compose t) := by
  intro binding member
  rcases List.mem_append.mp member with first | second
  · exact carried.mapValues (fun _ => carriedToo.apply) binding (List.mem_filter.mp first).1
  · exact carriedToo binding (List.mem_filter.mp second).1

theorem Carries.restrict (carried : v.Carries tried s) (names : List String) :
    v.Carries tried (s.restrict names) :=
  fun binding member => carried binding (List.mem_filter.mp member).1

/-! ### Unification -/

theorem carries_unifyPairs {unifyPair : Atom → Atom → Substitution → Option (Option Substitution)}
    (each : ∀ {a b s t}, v.Carries tried s → v.Spells tried a → v.Spells tried b →
      unifyPair a b s = some (some t) → v.Carries tried t) :
    ∀ {as bs : List Atom} {s t : Substitution}, v.Carries tried s →
      (∀ a ∈ as, v.Spells tried a) → (∀ b ∈ bs, v.Spells tried b) →
      unifyPairs unifyPair as bs s = some (some t) → v.Carries tried t := by
  intro as bs s t carried left right unified
  fun_induction unifyPairs unifyPair as bs s with
  | case1 s a as b bs extended step ih =>
    rw [List.forall_mem_cons] at left right
    exact ih (each carried left.1 right.1 step) left.2 right.2 unified
  | case2 s a as b bs stopped => exact absurd unified (stopped t)
  | case3 as bs s =>
    cases unified
    exact carried

theorem carries_unifyWithin (depth : Nat) : ∀ {a b : Atom} {s t : Substitution},
    v.Carries tried s → v.Spells tried a → v.Spells tried b →
      unifyWithin depth a b s = some (some t) → v.Carries tried t := by
  induction depth with
  | zero => exact fun _ _ _ unified => nomatch unified
  | succ depth ih =>
    intro a b s t carried left right unified
    have left := carried.resolve left
    have right := carried.resolve right
    rw [unifyWithin] at unified
    split at unified
    · split at unified
      · cases unified
        exact carried
      · exact carried.solve? right (Option.some.inj unified)
    · exact carried.solve? left (Option.some.inj unified)
    · split at unified <;> cases unified
      exact carried
    · next resolved resolvedToo =>
      rw [resolved,spells_expr] at left
      rw [resolvedToo,spells_expr] at right
      split at unified
      · exact carries_unifyPairs ih carried left right unified
      · cases unified
    · cases unified

theorem carries_unify (left : v.Spells tried a) (right : v.Spells tried b)
    (unified : unify a b = some s) : v.Carries tried s :=
  carries_unifyWithin _ carries_empty left right (Option.join_eq_some_iff.mp unified)

/-- Names of any kind, as long as no rule has been tried. -/
def ofNames (names : String → Prop) : Vocabulary where
  symbols _ := True
  names tried name := tried = 0 → names name
  truth := trivial
  conjunction := trivial
  implication := trivial
  grows _ _ _ first := absurd first (Nat.succ_ne_zero _)
  copies _ _ _ first := absurd first (Nat.succ_ne_zero _)

/-- A unifier binds nothing but what is in the two atoms. -/
theorem mentions_of_unify (unified : unify a b = some s) {binding : String × Atom}
    (bound : binding ∈ s.bindings) {name : String} (inside : binding.2.mentions name = true) :
    a.mentions name = true ∨ b.mentions name = true := by
  let v := ofNames fun name => a.mentions name = true ∨ b.mentions name = true
  have left : v.Spells 0 a := Atom.spelled_of_mentions a fun _ inside _ => .inl inside
  have right : v.Spells 0 b := Atom.spelled_of_mentions b fun _ inside _ => .inr inside
  exact (carries_unify left right unified binding bound).of_mentions inside rfl

/-! ### Spaces -/

theorem Stocks.query {space : Space} (stocked : v.Stocks tried space) (spelled : v.Spells tried a) :
    v.Answered tried (space.query a) := by
  intro answer member
  obtain ⟨b,s⟩ := answer
  obtain ⟨candidate,unified⟩ := (space.mem_query a b s).mp member
  have known := stocked b (Space.mem_toList_of_mem_candidates candidate)
  exact ⟨known,carries_unify spelled known unified⟩

theorem Stocks.add {space : Space} (stocked : v.Stocks tried space) (spelled : v.Spells tried a) :
    v.Stocks tried (space.add a).2 := by
  intro b stored
  rcases (space.mem_add a b).mp stored with rfl | old
  · exact spelled
  · exact stocked b old

theorem Stocks.remove {space : Space} (stocked : v.Stocks tried space) (a : Atom) :
    v.Stocks tried (space.remove a).2 :=
  fun b stored => stocked b ((space.mem_remove a b).mp stored).2

end Vocabulary
end AtomLogic
