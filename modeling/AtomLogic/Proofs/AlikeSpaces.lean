import AtomLogic.Proofs.Apart
import AtomLogic.Proofs.RenamedSpaces
import Mathlib.Algebra.Group.End
import Mathlib.Data.Fintype.Sum

/-! Permutations of some names, and spaces that are alike but for what mentions one of these names.
Adding or removing an atom to the one and the renamed atom to the other leaves them alike. -/

namespace AtomLogic

/-- A renaming that permutes some names and leaves all others as they are. -/
structure Permutes (kept : List String) (names : String → String) : Prop where
  injective : Function.Injective names
  closed : ∀ name ∈ kept, names name ∈ kept
  fixed : ∀ name, name ∉ kept → names name = name

namespace Permutes

variable {kept : List String} {names : String → String} (permutes : Permutes kept names)
include permutes

theorem rename_of_apart {a : Atom} (apart : a.isApart kept = true) : a.rename names = a := by
  refine Atom.rename_of_fixed fun name inside => permutes.fixed name fun among => ?_
  exact Bool.noConfusion (inside.symm.trans ((a.isApart_iff kept).mp apart name among))

theorem isApart_rename (a : Atom) : (a.rename names).isApart kept = a.isApart kept := by
  rw [Bool.eq_iff_iff,Atom.isApart_iff,Atom.isApart_iff]
  constructor
  · intro apart name among
    rw [← Atom.mentions_rename permutes.injective]
    exact apart (names name) (permutes.closed name among)
  · intro apart
    rw [permutes.rename_of_apart ((a.isApart_iff kept).mpr apart)]
    exact apart

end Permutes

/-- New names that tell the variables of a query apart extend to a permutation of the old and the
new ones. -/
theorem exists_permutes (names : String → String) (old : List String)
    (injective : ∀ m ∈ old, ∀ n ∈ old, names m = names n → m = n) :
    ∃ permuted, Permutes (old ++ old.map names) permuted ∧ ∀ name ∈ old, permuted name = names name := by
  let all := (old ++ old.map names).toFinset
  have among (name : String) : name ∈ all ↔ name ∈ old ++ old.map names := List.mem_toFinset
  let first : Set all := {name | name.1 ∈ old}
  have maps : first.MapsTo (fun name => names name.1) all := fun name member =>
    (among _).mpr (List.mem_append_right _ (List.mem_map_of_mem member))
  have injOn : first.InjOn fun name => names name.1 := fun m inOld n inOldToo same =>
    Subtype.ext (injective m inOld n inOldToo same)
  obtain ⟨extended,agrees⟩ := maps.exists_equiv_extend_of_card_eq (Fintype.card_coe all) injOn
  let permuted : Equiv.Perm String := Equiv.Perm.ofSubtype extended
  have inside {name : String} (member : name ∈ all) : permuted name = extended ⟨name,member⟩ :=
    Equiv.Perm.ofSubtype_apply_of_mem extended member
  refine ⟨permuted,⟨permuted.injective,fun name member => ?_,fun name outside => ?_⟩,?_⟩
  · rw [← among] at member ⊢
    rw [inside member]
    exact (extended ⟨name,member⟩).2
  · rw [← among] at outside
    exact Equiv.Perm.ofSubtype_apply_of_not_mem extended outside
  · intro name member
    rw [inside ((among name).mpr (List.mem_append_left _ member))]
    exact agrees ⟨name,_⟩ member

theorem Space.mem_candidates_of_mem_bucket {space : Space} {pattern a : Atom}
    (stored : a ∈ space.bucket (.of pattern)) : a ∈ space.candidates pattern := by
  rw [Space.candidates]
  split
  · exact ((space.mem_bucket_iff _ a).mp stored).1
  · next key => exact key ▸ stored

/-- Where the first space has nothing that mentions one of the names, the second has the same. -/
structure Alike (kept : List String) (space other : Space) : Prop where
  bucket : ∀ key, (∀ a ∈ space.bucket key, a.isApart kept = true) →
    other.bucket key = space.bucket key
  whole : (∀ a ∈ space.toList, a.isApart kept = true) → other = space

namespace Alike

variable {kept : List String} {names : String → String} {space other : Space}

theorem refl (space : Space) : Alike kept space space := ⟨fun _ _ => rfl,fun _ => rfl⟩

theorem candidates (alike : Alike kept space other) {pattern patternToo : Atom}
    (key : Key.of patternToo = Key.of pattern)
    (apart : ∀ a ∈ space.candidates pattern, a.isApart kept = true) :
    other.candidates patternToo = space.candidates pattern := by
  rw [Space.candidates] at apart ⊢
  rw [Space.candidates,key]
  cases found : Key.of pattern with
  | loose =>
    rw [found] at apart
    rw [alike.whole apart]
  | headed name =>
    rw [found] at apart
    exact alike.bucket _ apart

theorem bucket_add_of_ne {a : Atom} {key : Key} (differ : key ≠ .of a) (space : Space) :
    (space.add a).2.bucket key = space.bucket key := by
  by_cases stored : a ∈ space.toList
  · rw [Space.add_of_mem stored]
  · rw [(Space.add_of_not_mem stored).2.1,if_neg differ]

variable (permutes : Permutes kept names)
include permutes

theorem mem_toList_rename (alike : Alike kept space other) {a : Atom}
    (apart : ∀ b ∈ space.bucket (.of a), b.isApart kept = true) :
    a.rename names ∈ other.toList ↔ a ∈ space.toList := by
  rw [Space.mem_toList,Space.mem_toList]
  rw [Key.of_rename,alike.bucket _ apart]
  by_cases clean : a.isApart kept = true
  · rw [permutes.rename_of_apart clean]
  · have dirty := clean
    rw [← permutes.isApart_rename] at dirty
    exact iff_of_false (fun stored => dirty (apart _ stored)) fun stored => clean (apart _ stored)

theorem add (alike : Alike kept space other) (a : Atom) :
    Alike kept (space.add a).2 (other.add (a.rename names)).2 := by
  have key : Key.of (a.rename names) = Key.of a := Key.of_rename
  constructor
  · intro filed apart
    by_cases own : filed = .of a
    · subst own
      have old : ∀ b ∈ space.bucket (.of a), b.isApart kept = true := by
        simp only [Space.mem_bucket_iff,Space.mem_add] at apart ⊢
        exact fun b stored => apart b ⟨.inr stored.1,stored.2⟩
      have same := alike.mem_toList_rename permutes old
      by_cases stored : a ∈ space.toList
      · rw [Space.add_of_mem stored,Space.add_of_mem (same.mpr stored)]
        exact alike.bucket _ old
      · rw [(Space.add_of_not_mem stored).2.1,if_pos rfl] at apart ⊢
        rw [(Space.add_of_not_mem (mt same.mp stored)).2.1,if_pos key.symm,alike.bucket _ old,
          permutes.rename_of_apart (apart a (by simp))]
    · rw [bucket_add_of_ne own] at apart ⊢
      rw [bucket_add_of_ne (key ▸ own)]
      exact alike.bucket _ apart
  · intro apart
    have old : ∀ b ∈ space.toList, b.isApart kept = true :=
      fun b stored => apart b ((space.mem_add a b).mpr (.inr stored))
    rw [permutes.rename_of_apart (apart a ((space.mem_add a a).mpr (.inl rfl))),alike.whole old]

theorem remove (alike : Alike kept space other) {a : Atom}
    (apart : ∀ b ∈ space.bucket (.of a), b.isApart kept = true) :
    (other.remove (a.rename names)).1 = (space.remove a).1 ∧
      Alike kept (space.remove a).2 (other.remove (a.rename names)).2 := by
  have same := alike.mem_toList_rename permutes apart
  by_cases stored : a ∈ space.toList
  · have storedToo := same.mpr stored
    have fixed := permutes.rename_of_apart (apart a ((space.mem_toList a).mp stored))
    rw [fixed] at storedToo ⊢
    have removed := Space.remove_of_mem stored
    have removedToo := Space.remove_of_mem storedToo
    refine ⟨removedToo.1.trans removed.1.symm,fun filed left => ?_,fun left => ?_⟩
    · rw [removed.2.1] at left ⊢
      rw [removedToo.2.1]
      split at left
      · next own => rw [if_pos own,if_pos own,own,alike.bucket _ apart]
      · next differ => rw [if_neg differ,if_neg differ,alike.bucket _ left]
    · have old : ∀ b ∈ space.toList, b.isApart kept = true := by
        intro b inside
        by_cases itself : b = a
        · exact apart b (itself ▸ (space.mem_toList a).mp stored)
        · exact left b ((space.mem_remove a b).mpr ⟨itself,inside⟩)
      rw [alike.whole old]
  · rw [Space.remove_of_not_mem stored,Space.remove_of_not_mem (mt same.mp stored)]
    exact ⟨rfl,alike⟩

end Alike

end AtomLogic
