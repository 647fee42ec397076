import AtomLogic.Proofs.Renaming
import AtomLogic.Proofs.SpaceSteps

/-! Spaces with other names for the variables. The buckets are the same and hold the renamed atoms in
the same order. As long as different names stay different, storing, removing and looking up renamed
atoms is the same in such a space. -/

namespace AtomLogic

theorem Key.of_rename {names : String → String} {a : Atom} : Key.of (a.rename names) = Key.of a := by
  rw [Key.of,Key.of,Atom.head?_rename]

/-- The buckets of the second space are those of the first, in the same order, and hold its atoms
renamed, in the same order. -/
structure Space.Renames (names : String → String) (space other : Space) : Prop where
  keys : other.keys = space.keys
  bucket : ∀ key, other.bucket key = (space.bucket key).map (Atom.rename names)

namespace Space.Renames

variable {names : String → String} {space other : Space}

theorem of_fixed (fixed : ∀ a ∈ space.toList, a.rename names = a) : space.Renames names space where
  keys := rfl
  bucket key := by
    have stays : ∀ a ∈ space.bucket key, a.rename names = a :=
      fun a filed => fixed a ((space.mem_bucket_iff key a).mp filed).1
    rw [List.map_congr_left stays,List.map_id']

theorem inverse (renames : space.Renames names other) {back : String → String}
    (inverse : Function.LeftInverse back names) : other.Renames back space where
  keys := renames.keys.symm
  bucket key := by
    rw [renames.bucket,List.map_map,(Atom.rename_leftInverse inverse).comp_eq_id,List.map_id]

theorem toList (renames : space.Renames names other) :
    other.toList = space.toList.map (Atom.rename names) := by
  change other.keys.flatMap other.bucket = (space.keys.flatMap space.bucket).map _
  rw [renames.keys,List.map_flatMap]
  exact List.flatMap_congr fun key _ => renames.bucket key

theorem candidates (renames : space.Renames names other) (pattern : Atom) :
    other.candidates (pattern.rename names) = (space.candidates pattern).map (Atom.rename names) := by
  rw [Space.candidates,Space.candidates,Key.of_rename]
  split
  · exact renames.toList
  · exact renames.bucket _

variable (injective : Function.Injective names)
include injective

theorem query (renames : space.Renames names other) (pattern : Atom) :
    other.query (pattern.rename names) = (space.query pattern).rename names := by
  rw [Space.query,Space.query,renames.candidates,unifyAll_rename injective]

theorem mem_toList (renames : space.Renames names other) (a : Atom) :
    a.rename names ∈ other.toList ↔ a ∈ space.toList := by
  rw [renames.toList,List.mem_map_of_injective (Atom.rename_injective injective)]

theorem add (renames : space.Renames names other) (a : Atom) :
    (other.add (a.rename names)).1 = (space.add a).1 ∧
      (space.add a).2.Renames names (other.add (a.rename names)).2 := by
  have same := renames.mem_toList injective a
  by_cases stored : a ∈ space.toList
  · rw [Space.add_of_mem stored,Space.add_of_mem (same.mpr stored)]
    exact ⟨rfl,renames⟩
  · obtain ⟨new,filed,opened⟩ := Space.add_of_not_mem stored
    obtain ⟨newToo,filedToo,openedToo⟩ := Space.add_of_not_mem (mt same.mp stored)
    rw [Key.of_rename] at filedToo openedToo
    refine ⟨newToo.trans new.symm,?_,fun key => ?_⟩
    · rw [opened,openedToo,renames.keys]
    · rw [filed,filedToo,renames.bucket]
      split
      · rw [List.map_append,List.map_singleton]
      · rfl

theorem remove (renames : space.Renames names other) (a : Atom) :
    (other.remove (a.rename names)).1 = (space.remove a).1 ∧
      (space.remove a).2.Renames names (other.remove (a.rename names)).2 := by
  have same := renames.mem_toList injective a
  by_cases stored : a ∈ space.toList
  · obtain ⟨removed,filed,left⟩ := Space.remove_of_mem stored
    obtain ⟨removedToo,filedToo,leftToo⟩ := Space.remove_of_mem (same.mpr stored)
    have erased (key : Key) : (other.bucket key).erase (a.rename names) =
        ((space.bucket key).erase a).map (Atom.rename names) := by
      rw [renames.bucket,List.map_erase (Atom.rename_injective injective)]
    rw [Key.of_rename] at filedToo leftToo
    refine ⟨removedToo.trans removed.symm,?_,fun key => ?_⟩
    · simp only [left,leftToo,erased,List.map_eq_nil_iff,renames.keys]
    · rw [filed,filedToo,erased,renames.bucket]
      split <;> rfl
  · rw [Space.remove_of_not_mem stored,Space.remove_of_not_mem (mt same.mp stored)]
    exact ⟨rfl,renames⟩

end Space.Renames

end AtomLogic
