import AtomLogic.Unification
import AtomLogic.Proofs.Normalization

/-! Unification keeps within its depth. The expressions of the two atoms and of the bound
values are the pieces of the problem. Whatever is bound on the way, every expression that
comes up stands for one of the pieces, and two that enclose one another stand for different
ones. So no atom ever gets deeper than there are pieces. -/

namespace AtomLogic
open Atom Substitution

/-! ### One step -/

theorem resolve_unbound {s : Substitution} (normal : s.Normalized) {a : Atom} {name : String}
    (resolved : s.resolve a = .var name) : name ∉ s.names := by
  cases a with
  | sym symbol => cases resolved
  | expr children => cases resolved
  | var other =>
    have inside : (s.value other).mentions name = true := by
      rw [show s.value other = .var name from resolved,mentions_var]
    exact normal.not_mem_of_mentions_value inside

theorem resolve_instantiate {s : Substitution} {values : String → Atom}
    (factors : FactorsThrough values s) (a : Atom) :
    (s.resolve a).instantiate values = a.instantiate values := by
  cases a with
  | sym symbol => rfl
  | expr children => rfl
  | var name => exact factors (.var name)

theorem solve?_of_not_mem {s : Substitution} (normal : s.Normalized) {name : String}
    (unbound : name ∉ s.names) (term : Atom) :
    s.solve? name term =
      if (s.apply term).mentions name then none else some (s.extend name (s.apply term)) := by
  rw [solve?]
  split
  · rfl
  · next absent =>
    rw [bind?_of_not_mem unbound,normal.apply_apply,if_neg,if_neg absent]
    intro itself
    exact absent (itself ▸ (mentions_var _ _).mpr rfl)

/-! ### The pieces of a problem -/

/-- Every expression inside the atom stands, under the substitution, for one of the pieces. -/
def MadeOf (pieces : List Atom) (s : Substitution) (a : Atom) : Prop :=
  ∀ e ∈ a.expressions, s.apply e ∈ pieces.map s.apply

structure Within (pieces : List Atom) (s : Substitution) : Prop where
  normal : s.Normalized
  values : ∀ name, MadeOf pieces s (s.value name)

namespace MadeOf

variable {pieces : List Atom} {s t : Substitution}

theorem child {children : List Atom} (made : MadeOf pieces s (.expr children)) {a : Atom}
    (member : a ∈ children) : MadeOf pieces s a :=
  fun e inside => made e ((mem_expressions_expr _ _).mpr (.inr ⟨a,member,inside⟩))

theorem later {a : Atom} (made : MadeOf pieces s a) (factors : FactorsThrough t.value s) :
    MadeOf pieces t a := by
  intro e inside
  obtain ⟨piece,member,stands⟩ := List.mem_map.mp (made e inside)
  refine List.mem_map.mpr ⟨piece,member,?_⟩
  calc t.apply piece = t.apply (s.apply piece) := (factors piece).symm
    _ = t.apply (s.apply e) := by rw [stands]
    _ = t.apply e := factors e

theorem instantiate {a : Atom} {values : String → Atom} (made : MadeOf pieces t a)
    (ignored : ∀ c, t.apply (c.instantiate values) = t.apply c)
    (each : ∀ name, MadeOf pieces t (values name)) : MadeOf pieces t (a.instantiate values) := by
  intro e inside
  rcases mem_expressions_instantiate inside with ⟨u,part,rfl⟩ | ⟨name,_,part⟩
  · rw [ignored]
    exact made u part
  · exact each name e part

theorem apply {a : Atom} (within : Within pieces s) (made : MadeOf pieces s a) :
    MadeOf pieces s (s.apply a) :=
  made.instantiate within.normal.apply_apply within.values

theorem depth_le {a : Atom} (within : Within pieces s) (made : MadeOf pieces s a) :
    (s.apply a).depth ≤ pieces.length := by
  have size : (pieces.map s.apply).length = pieces.length := List.length_map s.apply
  rw [← size]
  apply depth_le_length
  intro e inside
  have fixed : s.apply e = e := by
    apply instantiate_of_not_mentions
    intro name mentioned
    exact value_of_not_mem
      (within.normal.not_mem_of_mentions_apply (mentions_of_mem_expressions inside mentioned))
  rw [← fixed]
  exact made.apply within e inside

end MadeOf

theorem Within.extend {pieces : List Atom} {s : Substitution} (within : Within pieces s)
    {name : String} (unbound : name ∉ s.names) {term : Atom} (made : MadeOf pieces s term)
    (absent : (s.apply term).mentions name = false) :
    Within pieces (s.extend name (s.apply term)) ∧
      FactorsThrough (s.extend name (s.apply term)).value s := by
  have normal := within.normal.extend unbound (within.normal.apply_apply term) absent
  obtain ⟨factors,equation⟩ := (factorsThrough_extend within.normal unbound term _).mp
    normal.factorsThrough_self
  refine ⟨⟨normal,fun other => ?_⟩,factors⟩
  rw [value_extend]
  apply ((within.values other).later factors).instantiate
  · exact (factorsThrough_single _ _ _).mpr (equation.trans (factors term).symm)
  · intro middle
    rw [value_single]
    split
    · exact (made.apply within).later factors
    · intro e inside
      cases inside

/-! ### The depth suffices -/

/-- Under whatever else is bound the atom stays less deep than the bound. -/
def Shallow (pieces : List Atom) (s : Substitution) (depth : Nat) (a : Atom) : Prop :=
  ∀ t, Within pieces t → FactorsThrough t.value s → (t.apply a).depth < depth

/-- The depth was not used up, and what is bound now is made of the pieces. -/
def Finishes (pieces : List Atom) (s : Substitution) (outcome : Option (Option Substitution)) :
    Prop :=
  ∃ result, outcome = some result ∧
    ∀ t, result = some t → Within pieces t ∧ FactorsThrough t.value s

theorem Shallow.later {pieces : List Atom} {s t : Substitution} {depth : Nat} {a : Atom}
    (shallow : Shallow pieces s depth a) (factors : FactorsThrough t.value s) :
    Shallow pieces t depth a := by
  intro u within further
  exact shallow u within (further.trans factors)

theorem Shallow.child {pieces : List Atom} {s : Substitution} {depth : Nat} {a child : Atom}
    {children : List Atom} (shallow : Shallow pieces s (depth + 1) a)
    (resolved : s.resolve a = .expr children) (member : child ∈ children) :
    Shallow pieces s depth child := by
  intro t within factors
  have whole : t.apply a = .expr (children.map t.apply) := by
    rw [← apply_expr,← resolved]
    exact (resolve_instantiate factors a).symm
  have bound := shallow t within factors
  rw [whole] at bound
  exact Nat.lt_of_lt_of_le (depth_lt_of_child (List.mem_map_of_mem member)) (Nat.le_of_lt_succ bound)

theorem MadeOf.resolve {pieces : List Atom} {s : Substitution} (within : Within pieces s) {a : Atom}
    (made : MadeOf pieces s a) : MadeOf pieces s (s.resolve a) := by
  cases a with
  | sym symbol => exact made
  | expr children => exact made
  | var name => exact within.values name

theorem Finishes.unchanged {pieces : List Atom} {s : Substitution} (within : Within pieces s) :
    Finishes pieces s (some (some s)) := by
  refine ⟨some s,rfl,fun t same => ?_⟩
  obtain rfl := Option.some.inj same
  exact ⟨within,within.normal.factorsThrough_self⟩

theorem Finishes.failed {pieces : List Atom} {s : Substitution} :
    Finishes pieces s (some none) :=
  ⟨none,rfl,fun _ same => nomatch same⟩

theorem Finishes.solved {pieces : List Atom} {s : Substitution} (within : Within pieces s)
    {name : String} (unbound : name ∉ s.names) {term : Atom} (made : MadeOf pieces s term) :
    Finishes pieces s (some (s.solve? name term)) := by
  rw [solve?_of_not_mem within.normal unbound]
  split
  · exact Finishes.failed
  · next absent =>
    refine ⟨_,rfl,fun t same => ?_⟩
    obtain rfl := Option.some.inj same
    exact within.extend unbound made (Bool.not_eq_true _ ▸ absent)

theorem unifyPairs_finishes {pieces : List Atom} {depth : Nat}
    (each : ∀ a b s, Within pieces s → MadeOf pieces s a → MadeOf pieces s b →
      Shallow pieces s depth a → Finishes pieces s (unifyWithin depth a b s)) :
    ∀ (as bs : List Atom) (s : Substitution), Within pieces s →
      (∀ a ∈ as, MadeOf pieces s a) → (∀ b ∈ bs, MadeOf pieces s b) →
      (∀ a ∈ as, Shallow pieces s depth a) →
      Finishes pieces s (unifyPairs (unifyWithin depth) as bs s) := by
  intro as
  induction as with
  | nil => exact fun bs s within _ _ _ => Finishes.unchanged within
  | cons a as ih =>
    intro bs s within leftMade rightMade shallow
    cases bs with
    | nil => exact Finishes.unchanged within
    | cons b bs =>
      obtain ⟨result,first,later⟩ := each a b s within (leftMade a List.mem_cons_self)
        (rightMade b List.mem_cons_self) (shallow a List.mem_cons_self)
      rw [unifyPairs,first]
      cases result with
      | none => exact Finishes.failed
      | some extended =>
        obtain ⟨extendedWithin,factors⟩ := later extended rfl
        obtain ⟨result,rest,after⟩ := ih bs extended extendedWithin
          (fun c member => (leftMade c (List.mem_cons_of_mem a member)).later factors)
          (fun c member => (rightMade c (List.mem_cons_of_mem b member)).later factors)
          (fun c member => (shallow c (List.mem_cons_of_mem a member)).later factors)
        refine ⟨result,rest,fun t same => ?_⟩
        obtain ⟨finalWithin,further⟩ := after t same
        exact ⟨finalWithin,further.trans factors⟩

theorem unifyWithin_finishes {pieces : List Atom} (depth : Nat) :
    ∀ (a b : Atom) (s : Substitution), Within pieces s → MadeOf pieces s a → MadeOf pieces s b →
      Shallow pieces s depth a → Finishes pieces s (unifyWithin depth a b s) := by
  induction depth with
  | zero =>
    intro a b s within _ _ shallow
    exact absurd (shallow s within within.normal.factorsThrough_self) (Nat.not_lt_zero _)
  | succ depth ih =>
    intro a b s within leftMade rightMade shallow
    have leftMade := leftMade.resolve within
    have rightMade := rightMade.resolve within
    rw [unifyWithin]
    cases left : s.resolve a with
    | var name =>
      have unbound := resolve_unbound within.normal left
      dsimp only
      split
      · exact Finishes.unchanged within
      · exact Finishes.solved within unbound rightMade
    | sym symbol =>
      cases right : s.resolve b with
      | var name =>
        exact Finishes.solved within (resolve_unbound within.normal right) (left ▸ leftMade)
      | sym other =>
        dsimp only
        split
        · exact Finishes.unchanged within
        · exact Finishes.failed
      | expr children => exact Finishes.failed
    | expr children =>
      cases right : s.resolve b with
      | var name =>
        exact Finishes.solved within (resolve_unbound within.normal right) (left ▸ leftMade)
      | sym symbol => exact Finishes.failed
      | expr others =>
        dsimp only
        split
        · rw [left] at leftMade
          rw [right] at rightMade
          exact unifyPairs_finishes ih children others s within (fun _ => leftMade.child)
            (fun _ => rightMade.child) (fun _ => shallow.child left)
        · exact Finishes.failed

def pieces (a b : Atom) (s : Substitution) : List Atom :=
  expressionsAll (a :: b :: s.bindings.map Prod.snd)

theorem length_pieces_lt (a b : Atom) (s : Substitution) :
    (pieces a b s).length < unificationDepth a b s := by
  have bound := length_expressions_le (.expr (a :: b :: s.bindings.map Prod.snd))
  simp only [expressions,List.length_cons,Atom.size,sizeAll] at bound
  rw [pieces,unificationDepth,weight]
  omega

theorem unifyWithin_isSome (a b : Atom) {s : Substitution} (normal : s.Normalized) :
    (unifyWithin (unificationDepth a b s) a b s).isSome := by
  have part {c : Atom} (member : c ∈ a :: b :: s.bindings.map Prod.snd) :
      MadeOf (pieces a b s) s c := by
    intro e inside
    apply List.mem_map_of_mem
    rw [pieces,expressionsAll_eq_flatMap,List.mem_flatMap]
    exact ⟨c,member,inside⟩
  have within : Within (pieces a b s) s := by
    refine ⟨normal,fun name => ?_⟩
    rcases value_cases s name with binding | ⟨_,itself⟩
    · apply part
      simpa using .inr (.inr ⟨name,binding⟩)
    · intro e inside
      rw [itself] at inside
      cases inside
  have left : MadeOf (pieces a b s) s a := part (by simp)
  have right : MadeOf (pieces a b s) s b := part (by simp)
  obtain ⟨result,finished,_⟩ := unifyWithin_finishes (unificationDepth a b s) a b s within left right
    fun t later factors => Nat.lt_of_le_of_lt ((left.later factors).depth_le later)
      (length_pieces_lt a b s)
  rw [finished,Option.isSome_some]

end AtomLogic
