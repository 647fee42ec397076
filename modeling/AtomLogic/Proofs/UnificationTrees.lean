import AtomLogic.Proofs.MostGeneral

/-! The recursion of unification ends. It is given here without a depth, by a rule for each case of
two resolved atoms; the premises of a rule are the calls that are made in this case. A derivation is
the tree of all the calls, and there is one for every problem that starts from a normalized
substitution, although the calls go into bound values as well. -/

namespace AtomLogic
open Atom Substitution

mutual
/-- Unification of two atoms on top of a substitution ends with this outcome. -/
inductive UnificationEnds : Atom → Atom → Substitution → Option Substitution → Prop where
  | same {a b : Atom} {s : Substitution} {name : String} :
      s.resolve a = .var name → s.resolve b = .var name → UnificationEnds a b s (some s)
  | left {a b : Atom} {s : Substitution} {name : String} :
      s.resolve a = .var name → s.resolve b ≠ .var name →
        UnificationEnds a b s (s.solve? name (s.resolve b))
  | right {a b : Atom} {s : Substitution} {name : String} :
      (∀ other, s.resolve a ≠ .var other) → s.resolve b = .var name →
        UnificationEnds a b s (s.solve? name (s.resolve a))
  | symbols {a b : Atom} {s : Substitution} {m n : String} :
      s.resolve a = .sym m → s.resolve b = .sym n →
        UnificationEnds a b s (if m = n then some s else none)
  | children {a b : Atom} {s : Substitution} {as bs : List Atom} {outcome : Option Substitution} :
      s.resolve a = .expr as → s.resolve b = .expr bs → as.length = bs.length →
        UnificationsEnd as bs s outcome → UnificationEnds a b s outcome
  | lengths {a b : Atom} {s : Substitution} {as bs : List Atom} :
      s.resolve a = .expr as → s.resolve b = .expr bs → as.length ≠ bs.length →
        UnificationEnds a b s none
  | symbolFirst {a b : Atom} {s : Substitution} {m : String} {bs : List Atom} :
      s.resolve a = .sym m → s.resolve b = .expr bs → UnificationEnds a b s none
  | symbolSecond {a b : Atom} {s : Substitution} {as : List Atom} {n : String} :
      s.resolve a = .expr as → s.resolve b = .sym n → UnificationEnds a b s none

/-- So does unification of two lists of atoms, pair by pair, up to the first that do not unify. -/
inductive UnificationsEnd :
    List Atom → List Atom → Substitution → Option Substitution → Prop where
  | nil {s : Substitution} : UnificationsEnd [] [] s (some s)
  | cons {a b : Atom} {as bs : List Atom} {s t : Substitution} {outcome : Option Substitution} :
      UnificationEnds a b s (some t) → UnificationsEnd as bs t outcome →
        UnificationsEnd (a :: as) (b :: bs) s outcome
  | stop {a b : Atom} {as bs : List Atom} {s : Substitution} :
      UnificationEnds a b s none → UnificationsEnd (a :: as) (b :: bs) s none
end

/-! ### A depth that is not used up -/

theorem unificationsEnd_of_unifyPairs
    {unifyPair : Atom → Atom → Substitution → Option (Option Substitution)}
    (each : ∀ a b s outcome, unifyPair a b s = some outcome → UnificationEnds a b s outcome)
    (as bs : List Atom) (s : Substitution) (outcome : Option Substitution)
    (lengths : as.length = bs.length) (done : unifyPairs unifyPair as bs s = some outcome) :
    UnificationsEnd as bs s outcome := by
  induction as generalizing bs s with
  | nil =>
    obtain rfl := List.length_eq_zero_iff.mp lengths.symm
    cases done
    exact .nil
  | cons a as ih =>
    cases bs with
    | nil => simp at lengths
    | cons b bs =>
      rw [unifyPairs] at done
      split at done
      · next t first => exact .cons (each a b s _ first) (ih bs t (Nat.succ.inj lengths) done)
      · next stopped =>
        cases outcome with
        | some t => exact absurd done (stopped t)
        | none => exact .stop (each a b s none done)

theorem unificationEnds_of_unifyWithin (depth : Nat) (a b : Atom) (s : Substitution)
    (outcome : Option Substitution) (done : unifyWithin depth a b s = some outcome) :
    UnificationEnds a b s outcome := by
  induction depth generalizing a b s outcome with
  | zero => simp [unifyWithin] at done
  | succ depth ih =>
    unfold unifyWithin at done
    split at done
    · next left =>
      obtain rfl := Option.some.inj done
      split
      · next right => exact .same left right
      · next right => exact .left left right
    · next right left =>
      obtain rfl := Option.some.inj done
      exact .right left right
    · next left right =>
      obtain rfl := Option.some.inj done
      exact .symbols left right
    · next as bs left right =>
      split at done
      · next lengths =>
        exact .children left right lengths
          (unificationsEnd_of_unifyPairs ih as bs s outcome lengths done)
      · next lengths =>
        obtain rfl := Option.some.inj done
        exact .lengths left right lengths
    · next noVariable noVariableToo noSymbols noExpressions =>
      obtain rfl := Option.some.inj done
      cases left : s.resolve a with
      | var name => exact absurd left (noVariable name)
      | sym m =>
        cases right : s.resolve b with
        | var name => exact absurd right (noVariableToo name)
        | sym n => exact absurd right (noSymbols m n left)
        | expr bs => exact .symbolFirst left right
      | expr as =>
        cases right : s.resolve b with
        | var name => exact absurd right (noVariableToo name)
        | sym n => exact .symbolSecond left right
        | expr bs => exact absurd right (noExpressions as bs left)

theorem unifyPairs_mono
    {unifyPair unifyMore : Atom → Atom → Substitution → Option (Option Substitution)}
    (each : ∀ a b s outcome, unifyPair a b s = some outcome → unifyMore a b s = some outcome)
    (as bs : List Atom) (s : Substitution) (outcome : Option Substitution)
    (done : unifyPairs unifyPair as bs s = some outcome) :
    unifyPairs unifyMore as bs s = some outcome := by
  induction as generalizing bs s with
  | nil => simpa [unifyPairs] using done
  | cons a as ih =>
    cases bs with
    | nil => simpa [unifyPairs] using done
    | cons b bs =>
      rw [unifyPairs] at done ⊢
      split at done
      · next t first =>
        rw [each a b s _ first]
        exact ih bs t done
      · next stopped =>
        cases outcome with
        | some t => exact absurd done (stopped t)
        | none => rw [each a b s none done]

theorem unifyWithin_mono {depth more : Nat} (le : depth ≤ more) (a b : Atom) (s : Substitution)
    (outcome : Option Substitution) (done : unifyWithin depth a b s = some outcome) :
    unifyWithin more a b s = some outcome := by
  induction depth generalizing more a b s outcome with
  | zero => simp [unifyWithin] at done
  | succ depth ih =>
    obtain ⟨more,rfl⟩ : ∃ n, more = n + 1 := ⟨more - 1,by omega⟩
    unfold unifyWithin at done ⊢
    split at done
    · exact done
    · exact done
    · exact done
    · next as bs _ _ =>
      split at done
      · next lengths =>
        rw [if_pos lengths]
        exact unifyPairs_mono (ih (Nat.le_of_succ_le_succ le)) as bs s outcome done
      · next lengths =>
        rw [if_neg lengths]
        exact done
    · exact done

mutual
theorem UnificationEnds.exists_depth {a b : Atom} {s : Substitution}
    {outcome : Option Substitution} :
    UnificationEnds a b s outcome → ∃ depth, unifyWithin depth a b s = some outcome
  | .same left right => ⟨1,by simp [unifyWithin,left,right]⟩
  | .left left right => ⟨1,by simp [unifyWithin,left,right]⟩
  | .right (a := a) (s := s) left right => by
    refine ⟨1,?_⟩
    cases resolved : s.resolve a with
    | var other => exact absurd resolved (left other)
    | sym m => simp [unifyWithin,resolved,right]
    | expr as => simp [unifyWithin,resolved,right]
  | .symbols left right => ⟨1,by simp [unifyWithin,left,right]⟩
  | .children left right lengths calls => by
    obtain ⟨depth,done⟩ := calls.exists_depth
    exact ⟨depth + 1,by simp [unifyWithin,left,right,lengths,done]⟩
  | .lengths left right lengths => ⟨1,by simp [unifyWithin,left,right,lengths]⟩
  | .symbolFirst left right => ⟨1,by simp [unifyWithin,left,right]⟩
  | .symbolSecond left right => ⟨1,by simp [unifyWithin,left,right]⟩

theorem UnificationsEnd.exists_depth {as bs : List Atom} {s : Substitution}
    {outcome : Option Substitution} :
    UnificationsEnd as bs s outcome →
      ∃ depth, unifyPairs (unifyWithin depth) as bs s = some outcome
  | .nil => ⟨0,by simp [unifyPairs]⟩
  | .cons call calls => by
    -- The calls are made on different substitutions, so each may need a depth of its own.
    obtain ⟨depth,first⟩ := call.exists_depth
    obtain ⟨more,others⟩ := calls.exists_depth
    refine ⟨max depth more,?_⟩
    rw [unifyPairs,unifyWithin_mono (le_max_left depth more) _ _ _ _ first]
    exact unifyPairs_mono (unifyWithin_mono (le_max_right depth more)) _ _ _ _ others
  | .stop call => by
    obtain ⟨depth,first⟩ := call.exists_depth
    exact ⟨depth,by rw [unifyPairs,first]⟩
end

/-- The recursion ends where some depth suffices, and with the same outcome. -/
theorem unificationEnds_iff {a b : Atom} {s : Substitution} {outcome : Option Substitution} :
    UnificationEnds a b s outcome ↔ ∃ depth, unifyWithin depth a b s = some outcome := by
  constructor
  · exact UnificationEnds.exists_depth
  · intro ⟨depth,done⟩
    exact unificationEnds_of_unifyWithin depth a b s outcome done

theorem UnificationEnds.unique {a b : Atom} {s : Substitution} {first second : Option Substitution}
    (ends : UnificationEnds a b s first) (endsToo : UnificationEnds a b s second) :
    first = second := by
  obtain ⟨depth,done⟩ := unificationEnds_iff.mp ends
  obtain ⟨more,doneToo⟩ := unificationEnds_iff.mp endsToo
  have one := unifyWithin_mono (le_max_left depth more) a b s first done
  have other := unifyWithin_mono (le_max_right depth more) a b s second doneToo
  exact Option.some.inj (one.symm.trans other)

/-! ### From a normalized substitution -/

theorem unifyWithin_unificationDepth (a b : Atom) {s : Substitution} (normal : s.Normalized) :
    unifyWithin (unificationDepth a b s) a b s = some (unifyWith a b s) := by
  obtain ⟨outcome,done⟩ := Option.isSome_iff_exists.mp (unifyWithin_isSome a b normal)
  rw [unifyWith,done,Option.join_some]

theorem unificationEnds_unifyWith (a b : Atom) {s : Substitution} (normal : s.Normalized) :
    UnificationEnds a b s (unifyWith a b s) :=
  unificationEnds_iff.mpr ⟨_,unifyWithin_unificationDepth a b normal⟩

/-- On top of a normalized substitution unification ends, with one outcome, and its calls do not nest
deeper than the two atoms and the bound values are large. -/
theorem unification_ends (a b : Atom) (s : Substitution) (normal : s.Normalized) :
    UnificationEnds a b s (unifyWith a b s) ∧
      (∀ outcome, UnificationEnds a b s outcome → outcome = unifyWith a b s) ∧
      ∀ depth, a.size + b.size + s.weight < depth →
        unifyWithin depth a b s = some (unifyWith a b s) := by
  have ends := unificationEnds_unifyWith a b normal
  refine ⟨ends,fun outcome endsToo => endsToo.unique ends,fun depth deep => ?_⟩
  exact unifyWithin_mono deep a b s _ (unifyWithin_unificationDepth a b normal)

private def doubled : Substitution := single "x" (.expr [.sym "f",.var "y",.var "y"])

private def taken : Atom := .expr [.sym "p",.var "x",.var "y"]

private def given : Atom :=
  .expr [.sym "p",.expr [.sym "f",.expr [.sym "g",.var "z"],.var "w"],.expr [.sym "g",.var "v"]]

/-- The value that replaces the first variable is larger than the variable, and what it binds replaces
the second one. -/
theorem unification_ends_doubled :
    let g : Atom := .expr [.sym "g",.var "v"]
    let unifier : Substitution :=
      ⟨[("x",.expr [.sym "f",g,g]),("y",g),("w",g),("z",.var "v")]⟩
    doubled.Normalized ∧ unifyWith taken given doubled = some unifier ∧
      UnificationEnds taken given doubled (some unifier) ∧
      ∀ outcome, UnificationEnds taken given doubled outcome → outcome = some unifier := by
  intro g unifier
  have normal : doubled.Normalized := by decide
  have unified : unifyWith taken given doubled = some unifier := by decide +kernel
  obtain ⟨ends,unique,_⟩ := unification_ends taken given doubled normal
  rw [unified] at ends unique
  exact ⟨normal,unified,ends,unique⟩

/-! ### From a circular one -/

theorem unifyWithin_of_circular {s : Substitution} {name symbol : String} {others : List Atom}
    (circular : s.value name = .expr (.sym symbol :: .var name :: others)) (depth : Nat) :
    unifyWithin depth (.var name) (.var name) s = none := by
  induction depth with
  | zero => rfl
  | succ depth ih =>
    have resolved : s.resolve (.var name) = .expr (.sym symbol :: .var name :: others) := circular
    -- The symbols bind nothing, and then the call is the one that was made before.
    have first : unifyWithin depth (.sym symbol) (.sym symbol) s = none ∨
        unifyWithin depth (.sym symbol) (.sym symbol) s = some (some s) := by
      cases depth <;> simp [unifyWithin,resolve]
    rcases first with stopped | passed
    · simp [unifyWithin,resolved,unifyPairs,stopped]
    · simp [unifyWithin,resolved,unifyPairs,passed,ih]

/-- The recursion does not end where a variable is bound to an expression that has it as an argument:
the variable is replaced again and again. -/
theorem not_unificationEnds_of_circular {s : Substitution} {name symbol : String}
    {others : List Atom} (circular : s.value name = .expr (.sym symbol :: .var name :: others))
    (outcome : Option Substitution) : ¬UnificationEnds (.var name) (.var name) s outcome := by
  intro ends
  obtain ⟨depth,done⟩ := unificationEnds_iff.mp ends
  simp [unifyWithin_of_circular circular] at done

/-! ### Atoms that are equal already -/

theorem resolve_eq_var_iff {s : Substitution} {a : Atom} {name : String} :
    s.resolve a = .var name ↔ s.apply a = .var name := by
  cases a with
  | sym symbol => simp [resolve]
  | expr children => simp [resolve]
  | var other => rfl

theorem apply_eq_iff_resolved {s : Substitution} (normal : s.Normalized) {a b : Atom} :
    s.apply a = s.apply b ↔ s.apply (s.resolve a) = s.apply (s.resolve b) := by
  have same (c : Atom) : s.apply (s.resolve c) = s.apply c :=
    resolve_instantiate normal.factorsThrough_self c
  rw [same,same]

mutual
theorem UnificationEnds.unchanged {a b : Atom} {s : Substitution} {outcome : Option Substitution} :
    UnificationEnds a b s outcome → s.Normalized → s.apply a = s.apply b → outcome = some s
  | .same _ _, _, _ => rfl
  | .left left right, _, equal => by
    -- If one of them is a variable when both are instantiated, so is the other.
    rw [resolve_eq_var_iff,equal,← resolve_eq_var_iff] at left
    exact absurd left right
  | .right left right, _, equal => by
    rw [resolve_eq_var_iff,← equal,← resolve_eq_var_iff] at right
    exact absurd right (left _)
  | .symbols left right, normal, equal => by
    rw [apply_eq_iff_resolved normal,left,right] at equal
    simpa using equal
  | .children left right _ calls, normal, equal => by
    rw [apply_eq_iff_resolved normal,left,right] at equal
    exact calls.unchanged normal (by simpa using equal)
  | .lengths left right lengths, normal, equal => by
    rw [apply_eq_iff_resolved normal,left,right,apply_expr,apply_expr,Atom.expr.injEq] at equal
    exact absurd (by simpa using congrArg List.length equal) lengths
  | .symbolFirst left right, normal, equal => by
    rw [apply_eq_iff_resolved normal,left,right] at equal
    simp at equal
  | .symbolSecond left right, normal, equal => by
    rw [apply_eq_iff_resolved normal,left,right] at equal
    simp at equal

theorem UnificationsEnd.unchanged {as bs : List Atom} {s : Substitution}
    {outcome : Option Substitution} :
    UnificationsEnd as bs s outcome → s.Normalized → as.map s.apply = bs.map s.apply →
      outcome = some s
  | .nil, _, _ => rfl
  | .cons call calls, normal, equal => by
    obtain ⟨first,others⟩ := List.cons.inj equal
    obtain rfl := Option.some.inj (call.unchanged normal first)
    exact calls.unchanged normal others
  | .stop call, normal, equal => call.unchanged normal (List.cons.inj equal).1
end

/-- Unification binds nothing, and reorders nothing, if and only if the atoms are equal already. So it
binds nothing when it is repeated, nor when an atom is unified with itself. -/
theorem unifyWith_eq_some_self_iff (a b : Atom) (s : Substitution) (normal : s.Normalized) :
    (unifyWith a b s = some s ↔ s.apply a = s.apply b) ∧
      (∀ t, unifyWith a b s = some t → unifyWith a b t = some t) ∧
      ∀ c, unify c c = some ∅ := by
  have unchanged {a b : Atom} {s : Substitution} (normal : s.Normalized)
      (equal : s.apply a = s.apply b) : unifyWith a b s = some s :=
    (unificationEnds_unifyWith a b normal).unchanged normal equal
  refine ⟨⟨fun unified => ?_,unchanged normal⟩,fun t unified => ?_,fun c => ?_⟩
  · obtain ⟨_,_,equal⟩ := unifyWith_sound normal unified
    exact equal
  · obtain ⟨normalToo,_,equal⟩ := unifyWith_sound normal unified
    exact unchanged normalToo equal
  · exact unchanged Normalized.empty rfl

theorem unifyWith_eq_some_self_iff_doubled :
    let unfolded : Atom := .expr [.sym "p",.expr [.sym "f",.var "y",.var "y"],.var "y"]
    doubled.Normalized ∧ taken ≠ unfolded ∧ doubled.apply taken = doubled.apply unfolded ∧
      unifyWith taken unfolded doubled = some doubled := by
  intro unfolded
  have normal : doubled.Normalized := by decide
  have equal : doubled.apply taken = doubled.apply unfolded := by decide
  obtain ⟨nothing,_⟩ := unifyWith_eq_some_self_iff taken unfolded doubled normal
  exact ⟨normal,by decide,equal,nothing.mpr equal⟩

end AtomLogic
