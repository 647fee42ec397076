import AtomLogic.Substitution
import AtomLogic.Proofs.Instantiation
import Mathlib.Data.List.Nodup

/-! Normalized substitutions, and the assignments that factor through a substitution. An
assignment gives every variable an atom; it factors through a substitution if applying the
substitution first makes no difference to it. Binding one more variable restricts the
assignments by one equation. -/

namespace AtomLogic.Substitution
open Atom

/-- Names are bound once, and no bound value mentions a bound name. -/
structure Normalized (s : Substitution) : Prop where
  namesOnce : s.names.Nodup
  settled : ∀ name value, (name,value) ∈ s.bindings →
    ∀ bound ∈ s.names, value.mentions bound = false

theorem normalized_iff (s : Substitution) :
    s.Normalized ↔ s.names.Nodup ∧
      ∀ binding ∈ s.bindings, ∀ bound ∈ s.names, binding.2.mentions bound = false :=
  ⟨fun normal => ⟨normal.namesOnce,fun _ member => normal.settled _ _ member⟩,
    fun ⟨once,settled⟩ => ⟨once,fun _ _ member => settled _ member⟩⟩

instance (s : Substitution) : Decidable s.Normalized := decidable_of_iff' _ (normalized_iff s)

/-- The assignment gives an atom the same instance before and after the substitution. -/
def FactorsThrough (values : String → Atom) (s : Substitution) : Prop :=
  ∀ a, (s.apply a).instantiate values = a.instantiate values

/-! ### Looking names up -/

theorem find?_eq_none_iff (s : Substitution) (name : String) :
    s.find? name = none ↔ name ∉ s.names := by
  simp only [find?,names,List.lookup_eq_none_iff,List.mem_map,bne_iff_ne,ne_eq,not_exists,not_and]
  exact ⟨fun absent binding member same => absent binding member same.symm,
    fun absent binding member same => absent binding member same.symm⟩

theorem mem_of_find? {s : Substitution} {name : String} {value : Atom}
    (found : s.find? name = some value) : (name,value) ∈ s.bindings := by
  obtain ⟨before,after,split,_⟩ := List.lookup_eq_some_iff.mp found
  rw [split]
  simp

theorem find?_of_mem {s : Substitution} (once : s.names.Nodup) {name : String} {value : Atom}
    (member : (name,value) ∈ s.bindings) : s.find? name = some value := by
  obtain ⟨before,after,split⟩ := List.append_of_mem member
  refine List.lookup_eq_some_iff.mpr ⟨before,after,split,?_⟩
  intro binding earlier
  rw [names,split,List.map_append,List.map_cons] at once
  have apart := (List.nodup_append.mp once).2.2
  simpa using (apart _ (List.mem_map_of_mem earlier) name (by simp)).symm

theorem mem_names {s : Substitution} {name : String} :
    name ∈ s.names ↔ ∃ value, (name,value) ∈ s.bindings := by
  simp [names]

theorem value_of_find? {s : Substitution} {name : String} {value : Atom}
    (found : s.find? name = some value) : s.value name = value := by
  rw [Substitution.value,found,Option.getD_some]

theorem value_of_mem {s : Substitution} (once : s.names.Nodup) {name : String} {value : Atom}
    (member : (name,value) ∈ s.bindings) : s.value name = value :=
  value_of_find? (find?_of_mem once member)

theorem value_of_not_mem {s : Substitution} {name : String} (unbound : name ∉ s.names) :
    s.value name = .var name := by
  rw [Substitution.value,(find?_eq_none_iff s name).mpr unbound,Option.getD_none]

theorem value_cases (s : Substitution) (name : String) :
    (name,s.value name) ∈ s.bindings ∨ name ∉ s.names ∧ s.value name = .var name := by
  cases found : s.find? name with
  | none =>
    have unbound := (find?_eq_none_iff s name).mp found
    exact .inr ⟨unbound,value_of_not_mem unbound⟩
  | some value =>
    rw [value_of_find? found]
    exact .inl (mem_of_find? found)

theorem find?_mapValues (change : Atom → Atom) (s : Substitution) (name : String) :
    (s.mapValues change).find? name = (s.find? name).map change := by
  obtain ⟨bindings⟩ := s
  induction bindings with
  | nil => rfl
  | cons binding rest ih =>
    obtain ⟨other,value⟩ := binding
    simp only [mapValues,find?,List.map_cons,List.lookup_cons] at ih ⊢
    split
    · rfl
    · exact ih

theorem names_mapValues (change : Atom → Atom) (s : Substitution) :
    (s.mapValues change).names = s.names := by
  simp [mapValues,names]

theorem value_single (name : String) (value : Atom) (other : String) :
    (single name value).value other = if other = name then value else .var other := by
  by_cases same : other = name
  · subst same
    simp [Substitution.value,find?,single]
  · rw [Substitution.value,find?,single,List.lookup_cons,beq_eq_false_iff_ne.mpr same,if_neg same]
    rfl

/-! ### Applying -/

@[simp] theorem apply_sym (s : Substitution) (name : String) : s.apply (.sym name) = .sym name :=
  rfl

@[simp] theorem apply_var (s : Substitution) (name : String) : s.apply (.var name) = s.value name :=
  rfl

@[simp] theorem apply_expr (s : Substitution) (children : List Atom) :
    s.apply (.expr children) = .expr (children.map s.apply) :=
  instantiate_expr _ _

@[simp] theorem value_empty (name : String) : (∅ : Substitution).value name = .var name := rfl

@[simp] theorem apply_empty (a : Atom) : (∅ : Substitution).apply a = a := instantiate_self a

namespace Normalized

theorem empty : (∅ : Substitution).Normalized where
  namesOnce := List.nodup_nil
  settled _ _ member := absurd member List.not_mem_nil

variable {s : Substitution} (normal : s.Normalized)
include normal

theorem not_mem_of_mentions_value {name bound : String}
    (inside : (s.value name).mentions bound = true) : bound ∉ s.names := by
  intro member
  rcases value_cases s name with binding | ⟨unbound,itself⟩
  · rw [normal.settled _ _ binding bound member] at inside
    cases inside
  · rw [itself,mentions_var] at inside
    exact unbound (inside ▸ member)

theorem not_mem_of_mentions_apply {a : Atom} {bound : String}
    (inside : (s.apply a).mentions bound = true) : bound ∉ s.names := by
  obtain ⟨name,_,inside⟩ := (mentions_instantiate _ _ _).mp inside
  exact normal.not_mem_of_mentions_value inside

theorem apply_apply (a : Atom) : s.apply (s.apply a) = s.apply a := by
  apply instantiate_of_not_mentions
  intro name inside
  exact value_of_not_mem (normal.not_mem_of_mentions_apply inside)

theorem factorsThrough_self : FactorsThrough s.value s := normal.apply_apply

end Normalized

/-! ### Assignments that factor through a substitution -/

theorem factorsThrough_iff (values : String → Atom) (s : Substitution) :
    FactorsThrough values s ↔ ∀ name, (s.value name).instantiate values = values name := by
  constructor
  · intro factors name
    exact factors (.var name)
  · intro named a
    rw [apply,instantiate_instantiate]
    exact instantiate_congr fun name _ => named name

theorem factorsThrough_empty (values : String → Atom) : FactorsThrough values ∅ := by
  intro a
  rw [apply_empty]

theorem FactorsThrough.trans {values : String → Atom} {s t : Substitution}
    (outer : FactorsThrough values t) (inner : FactorsThrough t.value s) :
    FactorsThrough values s := by
  intro a
  calc (s.apply a).instantiate values = (t.apply (s.apply a)).instantiate values := (outer _).symm
    _ = (t.apply a).instantiate values := congrArg (Atom.instantiate values) (inner a)
    _ = a.instantiate values := outer a

theorem factorsThrough_single (values : String → Atom) (name : String) (value : Atom) :
    FactorsThrough values (single name value) ↔ values name = value.instantiate values := by
  rw [factorsThrough_iff]
  constructor
  · intro named
    have bound := named name
    rw [value_single,if_pos rfl] at bound
    exact bound.symm
  · intro equation other
    rw [value_single]
    split
    · next same => rw [same,equation]
    · rfl

/-! ### One more binding -/

def extend (s : Substitution) (name : String) (value : Atom) : Substitution :=
  ⟨(s.mapValues (single name value).apply).bindings ++ [(name,value)]⟩

theorem names_extend (s : Substitution) (name : String) (value : Atom) :
    (s.extend name value).names = s.names ++ [name] := by
  rw [extend,names,List.map_append,← names,names_mapValues]
  rfl

theorem value_extend (s : Substitution) (name : String) (value : Atom) (other : String) :
    (s.extend name value).value other = (single name value).apply (s.value other) := by
  have split : (s.extend name value).find? other =
      ((s.find? other).map (single name value).apply).or ((single name value).find? other) := by
    rw [← find?_mapValues]
    exact List.lookup_append
  cases found : s.find? other with
  | none =>
    rw [Substitution.value,split,found,Option.map_none,Option.none_or,
      value_of_not_mem ((find?_eq_none_iff s other).mp found),apply_var,Substitution.value]
  | some old =>
    rw [Substitution.value,split,found,Option.map_some,Option.some_or,Option.getD_some,
      value_of_find? found]

theorem apply_extend (s : Substitution) (name : String) (value a : Atom) :
    (s.extend name value).apply a = (single name value).apply (s.apply a) := by
  rw [apply,apply,apply,instantiate_instantiate]
  exact instantiate_congr fun other _ => value_extend s name value other

theorem Normalized.extend {s : Substitution} (normal : s.Normalized) {name : String} {value : Atom}
    (unbound : name ∉ s.names) (settled : s.apply value = value)
    (absent : value.mentions name = false) : (s.extend name value).Normalized where
  namesOnce := by
    rw [names_extend]
    exact normal.namesOnce.append (List.nodup_singleton name) (by simpa using unbound)
  settled := by
    have free (bound : String) (member : bound ∈ (s.extend name value).names) :
        value.mentions bound = false := by
      rw [names_extend,List.mem_append,List.mem_singleton] at member
      rcases member with old | rfl
      · by_contra inside
        rw [Bool.not_eq_false,← settled] at inside
        exact normal.not_mem_of_mentions_apply inside old
      · exact absent
    intro other entry member bound boundMember
    rcases List.mem_append.mp member with old | new
    · obtain ⟨⟨first,original⟩,originalMember,same⟩ := List.mem_map.mp old
      obtain ⟨rfl,rfl⟩ := Prod.mk.inj same
      by_contra inside
      rw [Bool.not_eq_false] at inside
      obtain ⟨middle,first,second⟩ := (mentions_instantiate _ _ _).mp inside
      rw [value_single] at second
      split at second
      · rw [free bound boundMember] at second
        cases second
      · next other =>
        obtain rfl := (mentions_var _ _).mp second
        rw [names_extend,List.mem_append,List.mem_singleton,or_iff_left other] at boundMember
        rw [normal.settled _ _ originalMember _ boundMember] at first
        cases first
    · obtain ⟨rfl,rfl⟩ := Prod.mk.inj (List.mem_singleton.mp new)
      exact free bound boundMember

/-- One more binding is one more equation on the assignments that factor through. -/
theorem factorsThrough_extend {s : Substitution} (normal : s.Normalized) {name : String}
    (unbound : name ∉ s.names) (term : Atom) (values : String → Atom) :
    FactorsThrough values (s.extend name (s.apply term)) ↔
      FactorsThrough values s ∧ values name = term.instantiate values := by
  constructor
  · intro factors
    have through : FactorsThrough values s := by
      refine (factorsThrough_iff values s).mpr fun other => ?_
      calc (s.value other).instantiate values
          = ((s.extend name (s.apply term)).apply (s.value other)).instantiate values :=
            (factors _).symm
        _ = ((s.extend name (s.apply term)).value other).instantiate values := by
            rw [apply_extend,value_extend,← apply_var s,normal.apply_apply]
        _ = values other := (factorsThrough_iff _ _).mp factors other
    refine ⟨through,?_⟩
    have bound := (factorsThrough_iff _ _).mp factors name
    rw [value_extend,value_of_not_mem unbound,apply_var,value_single,if_pos rfl,
      through] at bound
    exact bound.symm
  · intro given
    obtain ⟨through,equation⟩ := given
    refine (factorsThrough_iff _ _).mpr fun other => ?_
    have ignored : FactorsThrough values (single name (s.apply term)) :=
      (factorsThrough_single _ _ _).mpr (equation.trans (through term).symm)
    rw [value_extend,ignored]
    exact (factorsThrough_iff _ _).mp through other

theorem bind?_of_not_mem {s : Substitution} {name : String} (unbound : name ∉ s.names)
    (term : Atom) :
    s.bind? name term =
      if s.apply term = .var name then some s
      else if (s.apply term).mentions name then none
      else some (s.extend name (s.apply term)) := by
  rw [bind?,(find?_eq_none_iff s name).mpr unbound]
  rfl

end AtomLogic.Substitution
