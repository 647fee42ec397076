import AtomLogic.Proofs.Composition
import AtomLogic.Proofs.MostGeneral

/-! Idempotent substitutions. Binding, restriction and unification keep a substitution normalized, and
so does composition if no value of the second one mentions a name that the first one binds. Unification
involves no variable but those of the problem, since a solution is free to give any other variable
whatever it likes. -/

namespace AtomLogic.Substitution
open Atom

/-! ### Keeping substitutions normalized -/

namespace Normalized

variable {s t : Substitution}

theorem bind? (normal : s.Normalized) {name : String} {value : Atom}
    (bound : s.bind? name value = some t) : t.Normalized := by
  by_cases old : name ∈ s.names
  · obtain ⟨existing,member⟩ := mem_names.mp old
    rw [Substitution.bind?,find?_of_mem normal.namesOnce member] at bound
    dsimp only at bound
    split at bound <;> cases bound
    exact normal
  · rw [bind?_of_not_mem old] at bound
    split at bound
    · cases bound
      exact normal
    · split at bound
      · cases bound
      · next absent =>
        cases bound
        exact normal.extend old (normal.apply_apply value) (Bool.eq_false_iff.mpr absent)

theorem restrict (normal : s.Normalized) (names : List String) : (s.restrict names).Normalized where
  namesOnce := nodup_restrict normal.namesOnce names
  settled name value member bound left :=
    normal.settled name value ((mem_restrict s names name value).mp member).1 bound
      ((names_restrict s names).subset left)

/-- What is left of a value after the second substitution is bound by neither. -/
theorem compose (normal : s.Normalized) (normalToo : t.Normalized)
    (apart : ∀ binding ∈ t.bindings, ∀ name ∈ s.names, binding.2.mentions name = false) :
    (s.compose t).Normalized where
  namesOnce := nodup_compose normal.namesOnce normalToo.namesOnce
  settled := by
    have added : ∀ binding ∈ t.bindings, ∀ name, name ∈ s.names ∨ name ∈ t.names →
        binding.2.mentions name = false :=
      fun binding member name either =>
        either.elim (apart binding member name) (normalToo.settled _ _ member name)
    intro name value member bound left
    have either := mem_names_compose left
    rcases (mem_compose s t name value).mp member with ⟨⟨u,original,rfl⟩,_⟩ | ⟨new,_⟩
    · by_contra inside
      obtain ⟨other,first,second⟩ := (mentions_instantiate _ _ _).mp (Bool.of_not_eq_false inside)
      rcases t.value_cases other with changed | ⟨unbound,itself⟩
      · rw [added _ changed bound either] at second
        cases second
      · rw [itself,mentions_var] at second
        subst second
        rw [normal.settled _ _ original _ (either.resolve_right unbound)] at first
        cases first
    · exact added _ new bound either

end Normalized

/-! ### Relevance -/

/-- The name is bound, or a bound value mentions it. -/
def Involves (s : Substitution) (name : String) : Prop :=
  name ∈ s.names ∨ ∃ binding ∈ s.bindings, binding.2.mentions name = true

/-- Whether an assignment factors through depends on the names that are involved alone. -/
theorem FactorsThrough.congr {s : Substitution} {first second : String → Atom} {name : String}
    (factors : FactorsThrough first s) (absent : ¬s.Involves name)
    (same : ∀ other, other ≠ name → first other = second other) : FactorsThrough second s := by
  rw [factorsThrough_iff] at factors ⊢
  intro other
  by_cases itself : other = name
  · subst itself
    rw [value_of_not_mem fun bound => absent (.inl bound)]
    rfl
  · have elsewhere : ∀ inner, (s.value other).mentions inner = true → inner ≠ name := by
      rintro inner inside rfl
      rcases s.value_cases other with bound | ⟨_,unchanged⟩
      · exact absent (.inr ⟨_,bound,inside⟩)
      · rw [unchanged,mentions_var] at inside
        exact itself inside
    rw [← instantiate_congr fun inner inside => same inner (elsewhere inner inside),factors,
      same other itself]

section

variable {a b : Atom} {s t : Substitution} (settled : Settles s (Unifies a b) (some t)) {name : String}
  (left : a.mentions name = false) (right : b.mentions name = false) (absent : ¬s.Involves name)
include settled left right absent

/-- A solution is still one after a change at a name that the problem does not involve. -/
theorem factorsThrough_update (choice : Atom) :
    FactorsThrough (Function.update t.value name choice) t := by
  obtain ⟨normal,exactly⟩ := settled
  obtain ⟨solves,equal⟩ := (exactly t.value).mp normal.factorsThrough_self
  have same (other : String) (differ : other ≠ name) :
      t.value other = Function.update t.value name choice other :=
    (Function.update_of_ne differ choice t.value).symm
  have alike {c : Atom} (apart : c.mentions name = false) :
      c.instantiate t.value = c.instantiate (Function.update t.value name choice) := by
    refine instantiate_congr fun other inside => same other ?_
    rintro rfl
    exact Bool.noConfusion (apart.symm.trans inside)
  refine (exactly _).mpr ⟨solves.congr absent same,?_⟩
  rw [Unifies,← alike left,← alike right]
  exact equal

theorem not_mem_of_settles : name ∉ t.names := by
  intro bound
  have apart : ∀ other, (t.value name).mentions other = true → other ≠ name := by
    rintro other inside rfl
    exact settled.1.not_mem_of_mentions_value inside bound
  have choices (choice : Atom) : (t.value name).instantiate t.value = choice := by
    have changed := (factorsThrough_iff _ _).mp
      (factorsThrough_update settled left right absent choice) name
    rw [Function.update_self] at changed
    rw [← changed]
    exact instantiate_congr fun other inside => (Function.update_of_ne (apart other inside) _ _).symm
  exact absurd ((choices .truth).symm.trans (choices .unit)) (by decide)

theorem not_involves_of_settles : ¬t.Involves name := by
  have unbound := not_mem_of_settles settled left right absent
  rintro (bound | ⟨⟨other,value⟩,member,inside⟩)
  · exact unbound bound
  have differ : other ≠ name := fun same => unbound (same ▸ mem_names.mpr ⟨value,member⟩)
  have changed := (factorsThrough_iff _ _).mp
    (factorsThrough_update settled left right absent .unit) other
  rw [Function.update_of_ne differ,value_of_mem settled.1.namesOnce member] at changed
  rw [← changed,mentions_instantiate] at inside
  obtain ⟨inner,original,inside⟩ := inside
  by_cases itself : inner = name
  · rw [itself,Function.update_self] at inside
    cases inside
  · have free : inner ∉ t.names := fun bound =>
      Bool.noConfusion ((settled.1.settled _ _ member inner bound).symm.trans original)
    rw [Function.update_of_ne itself,value_of_not_mem free,mentions_var] at inside
    exact itself inside

end

/-- A unifier involves no variable but those of the problem. -/
theorem involves_of_unifyWith {a b : Atom} {s t : Substitution} (normal : s.Normalized)
    (unified : unifyWith a b s = some t) {name : String} (involved : t.Involves name) :
    a.mentions name = true ∨ b.mentions name = true ∨ s.Involves name := by
  by_contra unrelated
  simp only [not_or,Bool.not_eq_true] at unrelated
  obtain ⟨left,right,absent⟩ := unrelated
  exact not_involves_of_settles (unified ▸ unifyWith_settles a b normal) left right absent involved

/-! ### What is built -/

/-- The substitutions that are made from the empty one, where nothing is composed with a
substitution whose values mention a name that is bound already. -/
inductive Built : Substitution → Prop where
  | empty : Built ∅
  | bind {s t : Substitution} {name : String} {value : Atom} :
      Built s → s.bind? name value = some t → Built t
  | restrict {s : Substitution} (names : List String) : Built s → Built (s.restrict names)
  | unify {s t : Substitution} {a b : Atom} : Built s → unifyWith a b s = some t → Built t
  | compose {s t : Substitution} : Built s → Built t →
      (∀ binding ∈ t.bindings, ∀ name ∈ s.names, binding.2.mentions name = false) →
        Built (s.compose t)

theorem Built.normalized {s : Substitution} (built : Built s) : s.Normalized := by
  induction built with
  | empty => exact Normalized.empty
  | bind _ bound normal => exact normal.bind? bound
  | restrict names _ normal => exact normal.restrict names
  | unify _ unified normal => exact (unifyWith_sound normal unified).1
  | compose _ _ apart normal normalToo => exact normal.compose normalToo apart

/-- Binding, restriction, unification and composition with what mentions no bound name keep a
substitution normalized; unification involves no further variable. So whatever is built by
them is idempotent. -/
theorem operations_normalized :
    (∀ s : Substitution, s.Normalized →
      (∀ name value t, s.bind? name value = some t → t.Normalized) ∧
      (∀ names, (s.restrict names).Normalized) ∧
      (∀ a b t, unifyWith a b s = some t → t.Normalized ∧
        ∀ name, t.Involves name →
          a.mentions name = true ∨ b.mentions name = true ∨ s.Involves name) ∧
      (∀ t : Substitution, t.Normalized →
        (∀ binding ∈ t.bindings, ∀ name ∈ s.names, binding.2.mentions name = false) →
          (s.compose t).Normalized)) ∧
    ∀ s, Built s → ∀ a, s.apply (s.apply a) = s.apply a := by
  refine ⟨fun s normal => ⟨?_,normal.restrict,?_,?_⟩,fun s built => built.normalized.apply_apply⟩
  · exact fun name value t bound => normal.bind? bound
  · exact fun a b t unified =>
      ⟨(unifyWith_sound normal unified).1,fun name => involves_of_unifyWith normal unified⟩
  · exact fun t normalToo => normal.compose normalToo

private def linked : Substitution := single "x" (.expr [.sym "f",.var "y"])

private def linking : Substitution := single "y" (.expr [.sym "g",.var "w"])

/-- The value of the first variable mentions the second, which is bound next. -/
theorem operations_normalized_linked :
    linked.Normalized ∧ linking.Normalized ∧
      (∀ binding ∈ linking.bindings, ∀ name ∈ linked.names, binding.2.mentions name = false) ∧
      (linked.compose linking).Normalized ∧
      (linked.compose linking).apply (.var "x") = .expr [.sym "f",.expr [.sym "g",.var "w"]] ∧
      Built (linked.compose linking) ∧
      (∀ a, (linked.compose linking).apply ((linked.compose linking).apply a) =
        (linked.compose linking).apply a) ∧
      ∃ t, unifyWith (.var "x") (.expr [.sym "f",.var "z"]) linked = some t ∧ t.Normalized ∧
        t.names = ["x","y"] := by
  have normal : linked.Normalized := by decide
  have normalToo : linking.Normalized := by decide
  have apart : ∀ binding ∈ linking.bindings, ∀ name ∈ linked.names,
      binding.2.mentions name = false := by decide
  have bound : (∅ : Substitution).bind? "x" (.expr [.sym "f",.var "y"]) = some linked := by decide
  have boundToo : (∅ : Substitution).bind? "y" (.expr [.sym "g",.var "w"]) = some linking := by decide
  have unified : unifyWith (.var "x") (.expr [.sym "f",.var "z"]) linked =
      some ⟨[("x",.expr [.sym "f",.var "z"]),("y",.var "z")]⟩ := by decide
  have built := (Built.empty.bind bound).compose (Built.empty.bind boundToo) apart
  obtain ⟨keeps,idempotent⟩ := operations_normalized
  obtain ⟨_,_,unifying,composing⟩ := keeps linked normal
  exact ⟨normal,normalToo,apart,composing linking normalToo apart,by decide,built,idempotent _ built,
    _,unified,(unifying _ _ _ unified).1,by decide⟩

end AtomLogic.Substitution
