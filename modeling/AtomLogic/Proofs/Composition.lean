import AtomLogic.Proofs.Normalization

/-! Composition and restriction of substitutions: what a name stands for afterwards, and which
assignments factor through the result. -/

namespace AtomLogic.Substitution
open Atom

/-! ### Composition -/

theorem contains_eq_false_iff (s : Substitution) (name : String) :
    s.contains name = false ↔ name ∉ s.names := by
  rw [contains,← find?_eq_none_iff,Option.isSome_eq_false_iff,Option.isNone_iff_eq_none]

theorem mem_compose (s t : Substitution) (name : String) (value : Atom) :
    (name,value) ∈ (s.compose t).bindings ↔
      ((∃ u, (name,u) ∈ s.bindings ∧ t.apply u = value) ∧ value ≠ .var name) ∨
        (name,value) ∈ t.bindings ∧ name ∉ s.names := by
  simp [compose,mapValues,contains_eq_false_iff]

theorem mem_names_compose {s t : Substitution} {name : String}
    (bound : name ∈ (s.compose t).names) : name ∈ s.names ∨ name ∈ t.names := by
  obtain ⟨value,member⟩ := mem_names.mp bound
  rcases (mem_compose s t name value).mp member with ⟨⟨u,first,_⟩,_⟩ | ⟨second,_⟩
  · exact .inl (mem_names.mpr ⟨u,first⟩)
  · exact .inr (mem_names.mpr ⟨value,second⟩)

variable {s t : Substitution}

theorem nodup_compose (once : s.names.Nodup) (onceToo : t.names.Nodup) :
    (s.compose t).names.Nodup := by
  have mapped : (s.mapValues t.apply).names.Nodup := names_mapValues t.apply s ▸ once
  rw [names,compose,List.map_append]
  refine ((List.filter_sublist.map Prod.fst).nodup mapped).append
    ((List.filter_sublist.map Prod.fst).nodup onceToo) ?_
  intro name bound later
  obtain ⟨⟨other,value⟩,member,rfl⟩ := List.mem_map.mp later
  have absent := (List.mem_filter.mp member).2
  have present := (List.filter_sublist.map Prod.fst).subset bound
  rw [← names,names_mapValues] at present
  rw [Bool.not_eq_true',contains_eq_false_iff] at absent
  exact absent present

theorem value_compose (once : s.names.Nodup) (onceToo : t.names.Nodup) (name : String) :
    (s.compose t).value name = t.apply (s.value name) := by
  have single := nodup_compose once onceToo
  rcases value_cases s name with bound | ⟨unbound,itself⟩
  · by_cases circular : t.apply (s.value name) = .var name
    · rw [circular]
      apply value_of_not_mem
      intro member
      obtain ⟨value,member⟩ := mem_names.mp member
      rcases (mem_compose s t name value).mp member with ⟨⟨u,first,rfl⟩,proper⟩ | ⟨_,absent⟩
      · exact proper (value_of_mem once first ▸ circular)
      · exact absent (mem_names.mpr ⟨_,bound⟩)
    · exact value_of_mem single ((mem_compose s t name _).mpr (.inl ⟨⟨_,bound,rfl⟩,circular⟩))
  · rw [itself]
    change _ = t.value name
    rcases value_cases t name with bound | ⟨unboundToo,itselfToo⟩
    · exact value_of_mem single ((mem_compose s t name _).mpr (.inr ⟨bound,unbound⟩))
    · rw [itselfToo]
      apply value_of_not_mem
      intro member
      exact (mem_names_compose member).elim unbound unboundToo

theorem apply_compose (once : s.names.Nodup) (onceToo : t.names.Nodup) (a : Atom) :
    (s.compose t).apply a = t.apply (s.apply a) := by
  rw [apply,apply,apply,instantiate_instantiate]
  exact instantiate_congr fun name _ => value_compose once onceToo name

theorem FactorsThrough.compose {values : String → Atom} (once : s.names.Nodup)
    (onceToo : t.names.Nodup) (first : FactorsThrough values s) (second : FactorsThrough values t) :
    FactorsThrough values (s.compose t) := by
  intro a
  rw [apply_compose once onceToo,second,first]

/-! ### Restriction -/

theorem names_restrict (s : Substitution) (names : List String) :
    (s.restrict names).names.Sublist s.names :=
  List.filter_sublist.map Prod.fst

theorem mem_restrict (s : Substitution) (names : List String) (name : String) (value : Atom) :
    (name,value) ∈ (s.restrict names).bindings ↔ (name,value) ∈ s.bindings ∧ name ∈ names := by
  simp [restrict]

theorem nodup_restrict (once : s.names.Nodup) (names : List String) :
    (s.restrict names).names.Nodup :=
  (names_restrict s names).nodup once

theorem value_restrict (once : s.names.Nodup) (names : List String) (name : String) :
    (s.restrict names).value name = if name ∈ names then s.value name else .var name := by
  rcases value_cases s name with bound | ⟨unbound,itself⟩
  · split
    · next kept =>
      exact value_of_mem (nodup_restrict once names) ((mem_restrict _ _ _ _).mpr ⟨bound,kept⟩)
    · next dropped =>
      apply value_of_not_mem
      intro member
      obtain ⟨value,member⟩ := mem_names.mp member
      exact dropped ((mem_restrict _ _ _ _).mp member).2
  · rw [itself,ite_self]
    exact value_of_not_mem fun member => unbound ((names_restrict s names).subset member)

theorem apply_restrict (once : s.names.Nodup) {names : List String} {a : Atom}
    (kept : ∀ name, a.mentions name = true → name ∈ names) :
    (s.restrict names).apply a = s.apply a := by
  apply instantiate_congr
  intro name inside
  rw [value_restrict once,if_pos (kept name inside)]

theorem FactorsThrough.restrict {values : String → Atom} (once : s.names.Nodup)
    (factors : FactorsThrough values s) (names : List String) :
    FactorsThrough values (s.restrict names) := by
  rw [factorsThrough_iff] at factors ⊢
  intro name
  rw [value_restrict once]
  split
  · exact factors name
  · rfl

end AtomLogic.Substitution
