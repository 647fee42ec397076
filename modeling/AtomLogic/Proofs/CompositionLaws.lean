import AtomLogic.Proofs.Composition
import Mathlib.Data.List.Perm.Subperm

/-! The laws of composition. A substitution that binds each name once and none to itself is known, up to
the order of its bindings, by what it does to atoms. Composition is to apply one substitution after
the other, and so it is associative and has the empty substitution as its unit. -/

namespace AtomLogic.Substitution
open Atom

/-- Names are bound once, and none of them to itself. -/
structure Proper (s : Substitution) : Prop where
  namesOnce : s.names.Nodup
  changes : ∀ binding ∈ s.bindings, binding.2 ≠ .var binding.1

/-! ### Equality up to the order of the bindings -/

theorem agrees_iff_perm {s t : Substitution} (once : s.names.Nodup) (onceToo : t.names.Nodup) :
    s.agrees t = true ↔ s.bindings.Perm t.bindings := by
  simp only [agrees,Bool.and_eq_true,beq_iff_eq,List.all_eq_true]
  constructor
  · rintro ⟨sizes,found⟩
    have within : s.bindings ⊆ t.bindings := fun binding member => mem_of_find? (found binding member)
    exact (List.subperm_of_subset once.of_map within).perm_of_length_le sizes.ge
  · intro perm
    exact ⟨perm.length_eq,fun binding member => find?_of_mem onceToo (perm.mem_iff.mp member)⟩

namespace Proper

theorem empty : (∅ : Substitution).Proper := ⟨List.nodup_nil,List.forall_mem_nil _⟩

variable {s t u : Substitution}

theorem compose (proper : s.Proper) (properToo : t.Proper) : (s.compose t).Proper where
  namesOnce := nodup_compose proper.namesOnce properToo.namesOnce
  changes := by
    rintro ⟨name,value⟩ member
    rcases (mem_compose s t name value).mp member with ⟨_,changed⟩ | ⟨new,_⟩
    · exact changed
    · exact properToo.changes _ new

theorem mem_bindings_iff (proper : s.Proper) {name : String} {value : Atom} :
    (name,value) ∈ s.bindings ↔ s.value name = value ∧ value ≠ .var name := by
  constructor
  · exact fun member => ⟨value_of_mem proper.namesOnce member,proper.changes _ member⟩
  · rintro ⟨rfl,changed⟩
    exact (s.value_cases name).resolve_right fun unbound => changed unbound.2

theorem perm_iff (proper : s.Proper) (properToo : t.Proper) :
    s.bindings.Perm t.bindings ↔ ∀ a, s.apply a = t.apply a := by
  rw [List.perm_ext_iff_of_nodup proper.namesOnce.of_map properToo.namesOnce.of_map]
  constructor
  · intro same a
    refine instantiate_congr fun name _ => ?_
    rcases s.value_cases name with bound | ⟨unbound,itself⟩
    · exact (value_of_mem properToo.namesOnce ((same _).mp bound)).symm
    · rw [itself,value_of_not_mem]
      intro bound
      obtain ⟨value,member⟩ := mem_names.mp bound
      exact unbound (mem_names.mpr ⟨value,(same _).mpr member⟩)
  · rintro same ⟨name,value⟩
    have named : s.value name = t.value name := same (.var name)
    rw [proper.mem_bindings_iff,properToo.mem_bindings_iff,named]

theorem agrees_iff (proper : s.Proper) (properToo : t.Proper) :
    s.agrees t = true ↔ ∀ a, s.apply a = t.apply a :=
  (agrees_iff_perm proper.namesOnce properToo.namesOnce).trans (proper.perm_iff properToo)

theorem agrees_iff_value (proper : s.Proper) (properToo : t.Proper) :
    s.agrees t = true ↔ s.value = t.value := by
  rw [proper.agrees_iff properToo]
  refine ⟨fun same => funext fun name => same (.var name),fun same a => ?_⟩
  rw [apply,apply,same]

theorem compose_assoc (proper : s.Proper) (properToo : t.Proper) (last : u.Proper) :
    ((s.compose t).compose u).agrees (s.compose (t.compose u)) = true := by
  have front := proper.compose properToo
  have back := properToo.compose last
  rw [(front.compose last).agrees_iff (proper.compose back)]
  intro a
  rw [apply_compose front.namesOnce last.namesOnce,apply_compose proper.namesOnce properToo.namesOnce,
    apply_compose proper.namesOnce back.namesOnce,apply_compose properToo.namesOnce last.namesOnce]

theorem empty_compose (proper : s.Proper) : ((∅ : Substitution).compose s).agrees s = true := by
  rw [(empty.compose proper).agrees_iff proper]
  intro a
  rw [apply_compose empty.namesOnce proper.namesOnce,apply_empty]

theorem compose_empty (proper : s.Proper) : (s.compose ∅).agrees s = true := by
  rw [(proper.compose empty).agrees_iff proper]
  intro a
  rw [apply_compose proper.namesOnce empty.namesOnce,apply_empty]

end Proper

/-- Composition is application one after the other. Among the substitutions that bind each name once
and none to itself, equality is to do the same to every atom, and composition is associative with
the empty substitution as its unit. -/
theorem compose_laws :
    (∀ s t : Substitution, s.names.Nodup → t.names.Nodup →
      (s.compose t).names.Nodup ∧ ∀ a, (s.compose t).apply a = t.apply (s.apply a)) ∧
    (∀ s t : Substitution, s.Proper → t.Proper →
      (s.compose t).Proper ∧ (s.agrees t = true ↔ ∀ a, s.apply a = t.apply a)) ∧
    (∀ s t u : Substitution, s.Proper → t.Proper → u.Proper →
      ((s.compose t).compose u).agrees (s.compose (t.compose u)) = true) ∧
    (∅ : Substitution).Proper ∧
    ∀ s : Substitution, s.Proper →
      ((∅ : Substitution).compose s).agrees s = true ∧ (s.compose ∅).agrees s = true := by
  refine ⟨fun s t once onceToo => ?sequential,fun s t proper properToo => ?extensional,
    fun s t u => Proper.compose_assoc,Proper.empty,
    fun s proper => ⟨proper.empty_compose,proper.compose_empty⟩⟩
  case sequential => exact ⟨nodup_compose once onceToo,apply_compose once onceToo⟩
  case extensional => exact ⟨proper.compose properToo,proper.agrees_iff properToo⟩

private def swapping (name other : String) : Substitution := single name (.var other)

/-- The second substitution undoes the first, whose name is then bound to nothing, while its own
name stays bound to the first. -/
theorem compose_laws_swapping :
    (swapping "x" "y").Proper ∧ (swapping "y" "x").Proper ∧
      ((swapping "x" "y").compose (swapping "y" "x")).bindings = [("y",.var "x")] ∧
      ((swapping "x" "y").compose (swapping "y" "x")).Proper ∧
      (∀ a, ((swapping "x" "y").compose (swapping "y" "x")).apply a =
        (swapping "y" "x").apply ((swapping "x" "y").apply a)) ∧
      (((swapping "x" "y").compose (swapping "y" "x")).compose (swapping "x" "y")).agrees
        ((swapping "x" "y").compose ((swapping "y" "x").compose (swapping "x" "y"))) = true ∧
      ((swapping "x" "y").compose ∅).agrees (swapping "x" "y") = true := by
  have proper : (swapping "x" "y").Proper := ⟨by decide,by decide⟩
  have properToo : (swapping "y" "x").Proper := ⟨by decide,by decide⟩
  obtain ⟨sequential,extensional,associative,_,unit⟩ := compose_laws
  exact ⟨proper,properToo,by decide,(extensional _ _ proper properToo).1,
    (sequential _ _ proper.namesOnce properToo.namesOnce).2,
    associative _ _ _ proper properToo proper,(unit _ proper).2⟩

end AtomLogic.Substitution
