import AtomLogic.Space

/-! What storing and removing an atom do to a space, told by its buckets and its keys. An
atom that was there already, or was not there, leaves the space as it is. -/

namespace AtomLogic.Space

theorem mem_toList (space : Space) (a : Atom) : a ∈ space.toList ↔ a ∈ space.bucket (.of a) := by
  rw [Index.toList,List.mem_flatMap]
  constructor
  · intro given
    obtain ⟨key,_,inside⟩ := given
    rwa [space.consistent.filed key a inside]
  · intro inside
    refine ⟨.of a,(space.consistent.mem_order _).mpr ?_,inside⟩
    rw [Index.bucket] at inside
    split at inside
    · next found => rw [found,Option.isSome_some]
    · cases inside

theorem mem_bucket_iff (space : Space) (key : Key) (a : Atom) :
    a ∈ space.bucket key ↔ a ∈ space.toList ∧ Key.of a = key := by
  rw [mem_toList]
  constructor
  · intro inside
    obtain rfl := space.consistent.filed key a inside
    exact ⟨inside,rfl⟩
  · intro given
    obtain ⟨inside,rfl⟩ := given
    exact inside

theorem contains_iff (space : Space) (a : Atom) : space.contains a = true ↔ a ∈ space.toList := by
  rw [Index.contains_iff,mem_toList]

theorem nodup_bucket (space : Space) (key : Key) : (space.bucket key).Nodup := by
  rw [Index.bucket]
  split
  · next bucket _ => exact bucket.atomsOnce
  · exact List.nodup_nil

theorem count_eq (space : Space) : space.count = space.toList.length := space.consistent.counted

theorem mem_keys (space : Space) (key : Key) :
    key ∈ space.keys ↔ key = .loose ∨ ∃ a ∈ space.toList, Key.of a = key := by
  constructor
  · intro member
    cases key with
    | loose => exact .inl rfl
    | headed name =>
      obtain ⟨a,inside⟩ := List.exists_mem_of_ne_nil _ (space.consistent.occupied name member)
      exact .inr ⟨a,(space.mem_bucket_iff _ a).mp inside⟩
  · intro given
    obtain (rfl | ⟨a,inside,rfl⟩) := given
    · exact List.mem_of_head? space.consistent.looseFirst
    · obtain ⟨key,member,filed⟩ := List.mem_flatMap.mp inside
      rwa [space.consistent.filed key a filed]

/-! ### Storing -/

theorem toIndex_add (space : Space) (a : Atom) :
    (space.add a).2.toIndex = (space.toIndex.add a).2 := rfl

theorem fst_add (space : Space) (a : Atom) : (space.add a).1 = (space.toIndex.add a).1 := rfl

theorem add_of_mem {space : Space} {a : Atom} (stored : a ∈ space.toList) :
    space.add a = (false,space) := by
  have same : space.toIndex.add a = (false,space.toIndex) := by
    rw [← contains_iff,Index.contains] at stored
    rw [Index.add]
    cases found : space.find? (.of a) with
    | some bucket =>
      rw [found] at stored
      exact dif_pos stored
    | none =>
      rw [found] at stored
      cases stored
  rw [Space.add]
  simp only [same]

theorem add_of_not_mem {space : Space} {a : Atom} (absent : a ∉ space.toList) :
    (space.add a).1 = true ∧
      (∀ key, (space.add a).2.bucket key =
        if key = .of a then space.bucket key ++ [a] else space.bucket key) ∧
      (space.add a).2.keys = if .of a ∈ space.keys then space.keys else space.keys ++ [.of a] := by
  have opened := space.consistent.mem_order (.of a)
  rw [← contains_iff,Index.contains] at absent
  rw [fst_add,keys,keys,toIndex_add,Index.add]
  cases found : space.find? (.of a) with
  | some bucket =>
    rw [found] at absent opened
    dsimp only
    rw [dif_neg absent,if_pos (opened.mpr rfl)]
    refine ⟨rfl,fun key => ?_,rfl⟩
    rw [Index.bucket_put]
    split
    · next same => rw [same,Index.bucket_of_find? found,Bucket.insert]
    · rfl
  | none =>
    rw [found,Option.isSome_none] at opened
    dsimp only
    rw [if_neg fun member => Bool.false_ne_true (opened.mp member)]
    refine ⟨rfl,fun key => ?_,rfl⟩
    rw [Index.bucket_openAt]
    split
    · next same =>
      rw [same,Index.bucket,found,Bucket.insert]
      rfl
    · rfl

theorem add_fst (space : Space) (a : Atom) : (space.add a).1 = true ↔ a ∉ space.toList := by
  constructor
  · intro new stored
    rw [add_of_mem stored] at new
    cases new
  · exact fun absent => (add_of_not_mem absent).1

theorem mem_add (space : Space) (a other : Atom) :
    other ∈ (space.add a).2.toList ↔ other = a ∨ other ∈ space.toList := by
  by_cases stored : a ∈ space.toList
  · rw [add_of_mem stored,or_iff_right_of_imp]
    intro given
    obtain rfl := given
    exact stored
  · rw [mem_toList,(add_of_not_mem stored).2.1,mem_toList]
    split
    · rw [List.mem_append,List.mem_singleton,or_comm]
    · next differ =>
      rw [or_iff_right]
      intro given
      obtain rfl := given
      exact differ rfl

theorem mem_addAll (atoms : List Atom) (space : Space) (a : Atom) :
    a ∈ (space.addAll atoms).2.toList ↔ a ∈ atoms ∨ a ∈ space.toList := by
  induction atoms generalizing space with
  | nil => simp [addAll]
  | cons first atoms ih =>
    rw [addAll]
    dsimp only
    rw [ih,mem_add,List.mem_cons,or_left_comm,or_assoc]

theorem mem_ofList (atoms : List Atom) (a : Atom) : a ∈ (ofList atoms).toList ↔ a ∈ atoms := by
  rw [ofList,mem_addAll,or_iff_left]
  exact List.not_mem_nil

/-! ### Removing -/

theorem toIndex_remove (space : Space) (a : Atom) :
    (space.remove a).2.toIndex = (space.toIndex.remove a).2 := rfl

theorem fst_remove (space : Space) (a : Atom) :
    (space.remove a).1 = (space.toIndex.remove a).1 := rfl

theorem remove_of_not_mem {space : Space} {a : Atom} (absent : a ∉ space.toList) :
    space.remove a = (false,space) := by
  have same : space.toIndex.remove a = (false,space.toIndex) := by
    rw [← contains_iff,Index.contains] at absent
    rw [Index.remove]
    cases found : space.find? (.of a) with
    | some bucket =>
      rw [found] at absent
      exact if_neg absent
    | none => rfl
  rw [Space.remove]
  simp only [same]

theorem remove_of_mem {space : Space} {a : Atom} (stored : a ∈ space.toList) :
    (space.remove a).1 = true ∧
      (∀ key, (space.remove a).2.bucket key =
        if key = .of a then (space.bucket key).erase a else space.bucket key) ∧
      (space.remove a).2.keys =
        if (space.bucket (.of a)).erase a = [] ∧ Key.of a ≠ .loose
          then space.keys.filter (· != .of a) else space.keys := by
  rw [← contains_iff,Index.contains] at stored
  rw [fst_remove,keys,keys,toIndex_remove,Index.remove]
  cases found : space.find? (.of a) with
  | none =>
    rw [found] at stored
    cases stored
  | some bucket =>
    rw [found] at stored
    dsimp only
    rw [if_pos stored,Index.bucket_of_find? found]
    dsimp only
    by_cases emptied : bucket.atoms.erase a = [] ∧ Key.of a ≠ .loose
    · have closes : ((bucket.erase a).atoms.isEmpty && Key.of a != .loose) = true := by
        rw [Bool.and_eq_true,List.isEmpty_iff,bne_iff_ne]
        exact emptied
      rw [if_pos closes,if_pos emptied]
      refine ⟨rfl,fun key => ?_,rfl⟩
      rw [Index.bucket_closeAt,Index.bucket_put]
      split
      · next same => rw [same,Index.bucket_of_find? found,emptied.1]
      · rfl
    · have stays : ¬((bucket.erase a).atoms.isEmpty && Key.of a != .loose) = true := by
        rw [Bool.and_eq_true,List.isEmpty_iff,bne_iff_ne]
        exact emptied
      rw [if_neg stays,if_neg emptied]
      refine ⟨rfl,fun key => ?_,rfl⟩
      rw [Index.bucket_put]
      split
      · next same => rw [same,Index.bucket_of_find? found,Bucket.erase]
      · rfl

theorem remove_fst (space : Space) (a : Atom) : (space.remove a).1 = true ↔ a ∈ space.toList := by
  constructor
  · intro removed
    by_cases stored : a ∈ space.toList
    · exact stored
    · rw [remove_of_not_mem stored] at removed
      cases removed
  · exact fun stored => (remove_of_mem stored).1

theorem mem_remove (space : Space) (a other : Atom) :
    other ∈ (space.remove a).2.toList ↔ other ≠ a ∧ other ∈ space.toList := by
  by_cases stored : a ∈ space.toList
  · rw [mem_toList,(remove_of_mem stored).2.1,mem_toList]
    split
    · exact (space.nodup_bucket _).mem_erase_iff
    · next differ =>
      rw [and_iff_right]
      intro given
      obtain rfl := given
      exact differ rfl
  · rw [remove_of_not_mem stored,and_iff_right_of_imp]
    intro inside given
    obtain rfl := given
    exact stored inside

/-! ### Queries -/

theorem key_of_eq_headed (a : Atom) (name : String) :
    Key.of a = .headed name ↔ a.head? = some name := by
  rw [Key.of]
  cases a.head? <;> simp

theorem mem_candidates {pattern : Atom} {name : String} (headed : pattern.head? = some name)
    (space : Space) (a : Atom) :
    a ∈ space.candidates pattern ↔ a ∈ space.toList ∧ a.head? = some name := by
  rw [candidates,(key_of_eq_headed pattern name).mpr headed]
  rw [mem_bucket_iff,key_of_eq_headed]

theorem mem_toList_of_mem_candidates {space : Space} {pattern a : Atom}
    (candidate : a ∈ space.candidates pattern) : a ∈ space.toList := by
  rw [candidates] at candidate
  split at candidate
  · exact candidate
  · exact ((space.mem_bucket_iff _ a).mp candidate).1

theorem mem_query (space : Space) (pattern a : Atom) (s : Substitution) :
    (a,s) ∈ space.query pattern ↔ a ∈ space.candidates pattern ∧ unify pattern a = some s := by
  simp [query,unifyAll]

end AtomLogic.Space
