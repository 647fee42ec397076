import AtomLogic.Proofs.UnificationDepth

/-! Unification gives a most general unifier and fails only where there is none. What a step
settles is said by the assignments that factor through its result: they are those that
factored through before and solve the equation. -/

namespace AtomLogic
open Atom Substitution

/-- The right outcome of solving an equation on top of a substitution. -/
def Settles (s : Substitution) (equation : (String → Atom) → Prop) : Option Substitution → Prop
  | some t => t.Normalized ∧
      ∀ values, FactorsThrough values t ↔ FactorsThrough values s ∧ equation values
  | none => ∀ values, FactorsThrough values s → ¬equation values

/-- An assignment under which two atoms become equal. -/
def Unifies (a b : Atom) (values : String → Atom) : Prop :=
  a.instantiate values = b.instantiate values

theorem Settles.congr {s : Substitution} {first second : (String → Atom) → Prop}
    {result : Option Substitution} (settled : Settles s first result)
    (same : ∀ values, FactorsThrough values s → (first values ↔ second values)) :
    Settles s second result := by
  cases result with
  | none => exact fun values factors solved =>
      settled values factors ((same values factors).mpr solved)
  | some t =>
    refine ⟨settled.1,fun values => (settled.2 values).trans ?_⟩
    exact and_congr_right fun factors => same values factors

theorem Settles.nothing {s : Substitution} (normal : s.Normalized)
    {equation : (String → Atom) → Prop} (holds : ∀ values, equation values) :
    Settles s equation (some s) :=
  ⟨normal,fun values => ⟨fun factors => ⟨factors,holds values⟩,And.left⟩⟩

/-! ### One step -/

theorem solve?_settles {s : Substitution} (normal : s.Normalized) {name : String}
    (unbound : name ∉ s.names) {term : Atom} (other : s.apply term ≠ .var name) :
    Settles s (Unifies (.var name) term) (s.solve? name term) := by
  rw [solve?_of_not_mem normal unbound]
  split
  · next inside =>
    intro values factors equation
    have differ : values name ≠ (s.apply term).instantiate values :=
      value_ne_instantiate inside other
    rw [factors term] at differ
    exact differ equation
  · next absent =>
    exact ⟨normal.extend unbound (normal.apply_apply term) (Bool.not_eq_true _ ▸ absent),
      factorsThrough_extend normal unbound term⟩

theorem unifyPairs_settles
    {unifyPair : Atom → Atom → Substitution → Option (Option Substitution)}
    (each : ∀ a b s result, s.Normalized → unifyPair a b s = some result →
      Settles s (Unifies a b) result) :
    ∀ (as bs : List Atom) (s : Substitution) (result : Option Substitution), s.Normalized →
      as.length = bs.length → unifyPairs unifyPair as bs s = some result →
      Settles s (fun values => as.map (instantiate values) = bs.map (instantiate values)) result := by
  intro as
  induction as with
  | nil =>
    intro bs s result normal lengths done
    obtain rfl := List.length_eq_zero_iff.mp lengths.symm
    obtain rfl := Option.some.inj done
    exact Settles.nothing normal fun _ => rfl
  | cons a as ih =>
    intro bs s result normal lengths done
    cases bs with
    | nil => cases lengths
    | cons b bs =>
      rw [unifyPairs] at done
      split at done
      · next extended first =>
        obtain ⟨extendedNormal,settled⟩ := each a b s _ normal first
        have rest := ih bs extended result extendedNormal (Nat.succ.inj lengths) done
        cases result with
        | none =>
          intro values factors equation
          obtain ⟨headEqual,tailEqual⟩ := List.cons.inj equation
          exact rest values ((settled values).mpr ⟨factors,headEqual⟩) tailEqual
        | some t =>
          refine ⟨rest.1,fun values => (rest.2 values).trans ?_⟩
          rw [settled values,and_assoc]
          refine and_congr_right fun _ => ?_
          simp only [Unifies,List.map_cons,List.cons.injEq]
      · next stopped =>
        cases result with
        | some t => exact absurd done (stopped t)
        | none =>
          intro values factors equation
          exact each a b s none normal done values factors (List.cons.inj equation).1

theorem unifyWithin_settles (depth : Nat) :
    ∀ (a b : Atom) (s : Substitution) (result : Option Substitution), s.Normalized →
      unifyWithin depth a b s = some result → Settles s (Unifies a b) result := by
  induction depth with
  | zero => intro a b s result normal done; cases done
  | succ depth ih =>
    intro a b s result normal done
    have leftUnbound : ∀ name, s.resolve a = .var name → name ∉ s.names :=
      fun _ => resolve_unbound normal
    have rightUnbound : ∀ name, s.resolve b = .var name → name ∉ s.names :=
      fun _ => resolve_unbound normal
    suffices settled : Settles s (Unifies (s.resolve a) (s.resolve b)) result by
      refine settled.congr fun values factors => ?_
      rw [Unifies,Unifies,resolve_instantiate factors,resolve_instantiate factors]
    rw [unifyWithin] at done
    generalize s.resolve a = left at done leftUnbound ⊢
    generalize s.resolve b = right at done rightUnbound ⊢
    cases left with
    | var name =>
      obtain rfl := Option.some.inj done
      split
      · next same =>
        subst same
        exact Settles.nothing normal fun _ => rfl
      · next other =>
        apply solve?_settles normal (leftUnbound name rfl)
        cases right with
        | sym symbol => simp
        | expr children => simp
        | var second =>
          rwa [apply_var,value_of_not_mem (rightUnbound second rfl)]
    | sym symbol =>
      cases right with
      | var name =>
        obtain rfl := Option.some.inj done
        exact (solve?_settles normal (rightUnbound name rfl) (by simp)).congr
          fun values _ => eq_comm
      | sym other =>
        obtain rfl := Option.some.inj done
        split
        · next same => exact Settles.nothing normal fun _ => congrArg Atom.sym same
        · next different => exact fun _ _ equation => different (Atom.sym.inj equation)
      | expr children =>
        obtain rfl := Option.some.inj done
        intro values _ equation
        rw [Unifies,instantiate_expr] at equation
        cases equation
    | expr children =>
      cases right with
      | var name =>
        obtain rfl := Option.some.inj done
        exact (solve?_settles normal (rightUnbound name rfl) (by simp)).congr
          fun values _ => eq_comm
      | sym symbol =>
        obtain rfl := Option.some.inj done
        intro values _ equation
        rw [Unifies,instantiate_expr] at equation
        cases equation
      | expr others =>
        dsimp only at done
        split at done
        · next lengths =>
          refine (unifyPairs_settles ih children others s result normal lengths done).congr ?_
          intro values _
          rw [Unifies,instantiate_expr,instantiate_expr,Atom.expr.injEq]
        · next lengths =>
          obtain rfl := Option.some.inj done
          intro values _ equation
          rw [Unifies,instantiate_expr,instantiate_expr,Atom.expr.injEq] at equation
          exact lengths (by simpa using congrArg List.length equation)

/-! ### Whole unifications -/

theorem unifyWith_settles (a b : Atom) {s : Substitution} (normal : s.Normalized) :
    Settles s (Unifies a b) (unifyWith a b s) := by
  obtain ⟨result,finished⟩ := Option.isSome_iff_exists.mp (unifyWithin_isSome a b normal)
  rw [unifyWith,finished,Option.join_some]
  exact unifyWithin_settles _ a b s result normal finished

theorem unifyWith_sound {a b : Atom} {s t : Substitution} (normal : s.Normalized)
    (unified : unifyWith a b s = some t) :
    t.Normalized ∧ FactorsThrough t.value s ∧ t.apply a = t.apply b := by
  obtain ⟨resultNormal,exactly⟩ := unified ▸ unifyWith_settles a b normal
  exact ⟨resultNormal,(exactly t.value).mp resultNormal.factorsThrough_self⟩

theorem unifyWith_complete {a b : Atom} {s : Substitution} (normal : s.Normalized)
    {values : String → Atom} (factors : FactorsThrough values s) (equal : Unifies a b values) :
    ∃ t, unifyWith a b s = some t ∧ FactorsThrough values t := by
  have settled := unifyWith_settles a b normal
  cases found : unifyWith a b s with
  | none =>
    rw [found] at settled
    exact absurd equal (settled values factors)
  | some t =>
    rw [found] at settled
    exact ⟨t,rfl,(settled.2 values).mpr ⟨factors,equal⟩⟩

theorem unify_sound {a b : Atom} {t : Substitution} (unified : unify a b = some t) :
    t.Normalized ∧ t.apply a = t.apply b := by
  obtain ⟨normal,_,equal⟩ := unifyWith_sound Normalized.empty unified
  exact ⟨normal,equal⟩

theorem unify_complete {a b : Atom} {values : String → Atom} (equal : Unifies a b values) :
    ∃ t, unify a b = some t ∧ FactorsThrough values t :=
  unifyWith_complete Normalized.empty (factorsThrough_empty values) equal

/-- Unification gives a most general unifier, and fails only where there is no unifier: on
top of any normalized substitution, and so from nothing. -/
theorem unifyWith_mostGeneral (a b : Atom) (s : Substitution) (normal : s.Normalized) :
    (∀ t, unifyWith a b s = some t →
      t.apply a = t.apply b ∧ ∀ c, t.apply (s.apply c) = t.apply c) ∧
    (∀ values : String → Atom,
      (∀ c, (s.apply c).instantiate values = c.instantiate values) →
      a.instantiate values = b.instantiate values →
      ∃ t, unifyWith a b s = some t ∧
        ∀ c, (t.apply c).instantiate values = c.instantiate values) ∧
    (∀ t, unify a b = some t → t.apply a = t.apply b) ∧
    (∀ values : String → Atom, a.instantiate values = b.instantiate values →
      ∃ t, unify a b = some t ∧
        ∀ c, (t.apply c).instantiate values = c.instantiate values) ∧
    (canUnify a b = true ↔
      ∃ values : String → Atom, a.instantiate values = b.instantiate values) := by
  refine ⟨?sound,?complete,fun t unified => (unify_sound unified).2,
    fun values equal => unify_complete equal,?decided⟩
  case sound =>
    intro t unified
    obtain ⟨_,factors,equal⟩ := unifyWith_sound normal unified
    exact ⟨equal,factors⟩
  case complete =>
    intro values factors equal
    exact unifyWith_complete normal factors equal
  case decided =>
    rw [canUnify,Option.isSome_iff_exists]
    constructor
    · intro given
      obtain ⟨t,unified⟩ := given
      exact ⟨t.value,(unify_sound unified).2⟩
    · intro given
      obtain ⟨values,equal⟩ := given
      obtain ⟨t,unified,_⟩ := unify_complete equal
      exact ⟨t,unified⟩

theorem unifyWith_mostGeneral_bound :
    (single "x" (.expr [.sym "f",.var "y"])).Normalized ∧
      unifyWith (.var "x") (.expr [.sym "f",.var "z"]) (single "x" (.expr [.sym "f",.var "y"])) =
        some ⟨[("x",.expr [.sym "f",.var "z"]),("y",.var "z")]⟩ ∧
      (⟨[("x",.expr [.sym "f",.var "z"]),("y",.var "z")]⟩ : Substitution).apply (.var "x") =
        (⟨[("x",.expr [.sym "f",.var "z"]),("y",.var "z")]⟩ : Substitution).apply
          (.expr [.sym "f",.var "z"]) := by
  have normal : (single "x" (.expr [.sym "f",.var "y"])).Normalized := by decide
  have unified : unifyWith (.var "x") (.expr [.sym "f",.var "z"])
      (single "x" (.expr [.sym "f",.var "y"])) =
        some ⟨[("x",.expr [.sym "f",.var "z"]),("y",.var "z")]⟩ := by decide
  exact ⟨normal,unified,((unifyWith_mostGeneral _ _ _ normal).1 _ unified).1⟩

end AtomLogic
