import AtomLogic.Proofs.SpaceSteps
import Mathlib.Data.Set.Card
import Mathlib.Data.List.Nodup

/-! A space is what its history says. The history is the list of the events that succeeded,
oldest first: an atom was stored, or one was removed. It alone decides which atoms are there
now, in which order a bucket lists them, and in which order the buckets stand. -/

namespace AtomLogic

/-- A call that changes a space. -/
inductive Change where
  | add (a : Atom)
  | addAll (atoms : List Atom)
  | remove (a : Atom)
deriving DecidableEq, Repr

inductive Event where
  | stored (a : Atom)
  | removed (a : Atom)
deriving DecidableEq, Repr

namespace Change

def apply : Change → Space → Space
  | add a, space => (space.add a).2
  | addAll atoms, space => (space.addAll atoms).2
  | remove a, space => (space.remove a).2

def storing (a : Atom) (space : Space) : List Event :=
  if (space.add a).1 then [.stored a] else []

def storingAll : List Atom → Space → List Event
  | [], _ => []
  | a :: atoms, space => storing a space ++ storingAll atoms (space.add a).2

def events : Change → Space → List Event
  | add a, space => storing a space
  | addAll atoms, space => storingAll atoms space
  | remove a, space => if (space.remove a).1 then [.removed a] else []

def applyAll (changes : List Change) (space : Space) : Space :=
  changes.foldl (fun space change => change.apply space) space

def eventsAll : List Change → Space → List Event
  | [], _ => []
  | change :: changes, space => change.events space ++ eventsAll changes (change.apply space)

end Change

/-! ### What a history says -/

/-- The atom was stored and not removed since. -/
def Present (history : List Event) (a : Atom) : Prop :=
  ∃ before after, history = before ++ .stored a :: after ∧ .removed a ∉ after

/-- How many events came after the last one that stored the atom. -/
def age (history : List Event) (a : Atom) : Nat := history.reverse.idxOf (.stored a)

def Occupied (history : List Event) (key : Key) : Prop := ∃ a, Present history a ∧ Key.of a = key

/-- With the event at this place the key went from having no atom to having one. -/
def Opens (history : List Event) (key : Key) (place : Nat) : Prop :=
  ¬Occupied (history.take place) key ∧ Occupied (history.take (place + 1)) key

def LastOpens (history : List Event) (key : Key) (place : Nat) : Prop :=
  Opens history key place ∧ ∀ other, Opens history key other → other ≤ place

/-- The key was opened before another, each counted from when it was last opened. -/
def OpenedBefore (history : List Event) (first second : Key) : Prop :=
  ∃ m n, LastOpens history first m ∧ LastOpens history second n ∧ m < n

theorem not_present_nil (a : Atom) : ¬Present [] a := by
  intro given
  obtain ⟨before,after,split,_⟩ := given
  simp at split

theorem present_append_stored (history : List Event) (a other : Atom) :
    Present (history ++ [.stored a]) other ↔ other = a ∨ Present history other := by
  constructor
  · intro given
    obtain ⟨before,after,split,kept⟩ := given
    rcases List.eq_nil_or_concat' after with rfl | ⟨middle,last,rfl⟩
    · obtain ⟨_,same⟩ := List.append_inj' split rfl
      exact .inl (by simpa using same.symm)
    · rw [← List.cons_append,← List.append_assoc] at split
      obtain ⟨earlier,_⟩ := List.append_inj' split rfl
      exact .inr ⟨before,middle,earlier,fun inside => kept (List.mem_append_left _ inside)⟩
  · intro given
    obtain (rfl | ⟨before,after,rfl,kept⟩) := given
    · exact ⟨history,[],rfl,List.not_mem_nil⟩
    · exact ⟨before,after ++ [.stored a],by simp,by simpa using kept⟩

theorem present_append_removed (history : List Event) (a other : Atom) :
    Present (history ++ [.removed a]) other ↔ other ≠ a ∧ Present history other := by
  constructor
  · intro given
    obtain ⟨before,after,split,kept⟩ := given
    rcases List.eq_nil_or_concat' after with rfl | ⟨middle,last,rfl⟩
    · obtain ⟨_,same⟩ := List.append_inj' split rfl
      simp at same
    · rw [← List.cons_append,← List.append_assoc] at split
      obtain ⟨earlier,same⟩ := List.append_inj' split rfl
      obtain rfl : Event.removed a = last := by simpa using same
      rw [List.mem_append,not_or] at kept
      refine ⟨?_,before,middle,earlier,kept.1⟩
      intro given
      obtain rfl := given
      exact kept.2 (List.mem_singleton_self _)
  · intro given
    obtain ⟨differ,before,after,rfl,kept⟩ := given
    exact ⟨before,after ++ [.removed a],by simp,by simpa [differ] using kept⟩

theorem age_append (history : List Event) (event : Event) (a : Atom) :
    age (history ++ [event]) a = if event = .stored a then 0 else age history a + 1 := by
  rw [age,List.reverse_append,List.reverse_singleton,List.singleton_append,List.idxOf_cons,age]
  by_cases same : event = .stored a
  · rw [if_pos same,beq_iff_eq.mpr same,cond_true]
  · rw [if_neg same,beq_eq_false_iff_ne.mpr same,cond_false]

theorem place_lt_of_opens {history : List Event} {key : Key} {place : Nat}
    (opens : Opens history key place) : place < history.length := by
  by_contra beyond
  rw [Nat.not_lt] at beyond
  obtain ⟨before,after⟩ := opens
  rw [List.take_of_length_le beyond] at before
  rw [List.take_of_length_le (Nat.le_succ_of_le beyond)] at after
  exact before after

theorem opens_append {history : List Event} {key : Key} {place : Nat} (event : Event)
    (within : place < history.length) :
    Opens (history ++ [event]) key place ↔ Opens history key place := by
  rw [Opens,Opens,List.take_append_of_le_length (Nat.le_of_lt within),
    List.take_append_of_le_length within]

theorem LastOpens.append {history : List Event} {key : Key} {place : Nat}
    (last : LastOpens history key place) (occupied : Occupied history key) (event : Event) :
    LastOpens (history ++ [event]) key place := by
  refine ⟨(opens_append event (place_lt_of_opens last.1)).mpr last.1,fun other opens => ?_⟩
  have bound := place_lt_of_opens opens
  rw [List.length_append,List.length_singleton] at bound
  rcases Nat.lt_succ_iff_lt_or_eq.mp bound with earlier | rfl
  · exact last.2 other ((opens_append event earlier).mp opens)
  · have before := opens.1
    rw [List.take_append_of_le_length (Nat.le_refl _),List.take_length] at before
    exact absurd occupied before

theorem lastOpens_length {history : List Event} {key : Key} {event : Event}
    (before : ¬Occupied history key) (after : Occupied (history ++ [event]) key) :
    LastOpens (history ++ [event]) key history.length := by
  have whole : (history ++ [event]).length = history.length + 1 := by simp
  refine ⟨⟨?_,?_⟩,fun other opens => ?_⟩
  · rwa [List.take_append_of_le_length (Nat.le_refl _),List.take_length]
  · rwa [List.take_of_length_le whole.le]
  · have bound := place_lt_of_opens opens
    omega

theorem OpenedBefore.append {history : List Event} {first second : Key}
    (before : OpenedBefore history first second) (firstOccupied : Occupied history first)
    (secondOccupied : Occupied history second) (event : Event) :
    OpenedBefore (history ++ [event]) first second := by
  obtain ⟨m,n,firstOpens,secondOpens,less⟩ := before
  exact ⟨m,n,firstOpens.append firstOccupied event,secondOpens.append secondOccupied event,less⟩

/-! ### Spaces that keep to a history -/

/-- What every call keeps: the atoms, their order and that of the buckets follow a history. -/
structure Follows (history : List Event) (space : Space) : Prop where
  present : ∀ a, a ∈ space.toList ↔ Present history a
  aged : ∀ key, (space.bucket key).Pairwise (fun first second => age history second < age history first)
  opened : ∀ key ∈ space.keys.tail, ∃ place, LastOpens history key place
  ordered : space.keys.tail.Pairwise (OpenedBefore history)

theorem Space.keys_eq (space : Space) : space.keys = .loose :: space.keys.tail :=
  List.eq_cons_of_mem_head? space.consistent.looseFirst

theorem Space.loose_not_mem (space : Space) : Key.loose ∉ space.keys.tail := by
  have once := space.consistent.orderOnce
  rw [← keys,keys_eq,List.nodup_cons] at once
  exact once.1

namespace Follows

variable {history : List Event} {space : Space}

theorem empty : Follows [] ∅ where
  present a := ⟨fun inside => (nomatch inside),fun present => absurd present (not_present_nil a)⟩
  aged key := by cases key <;> exact List.Pairwise.nil
  opened key member := nomatch member
  ordered := List.Pairwise.nil

variable (follows : Follows history space)
include follows

theorem occupied {key : Key} (member : key ∈ space.keys.tail) : Occupied history key := by
  rcases (space.mem_keys key).mp (List.mem_of_mem_tail member) with rfl | ⟨a,inside,filed⟩
  · exact absurd member space.loose_not_mem
  · exact ⟨a,(follows.present a).mp inside,filed⟩

theorem ordered_append {keys : List Key} (kept : keys.Sublist space.keys.tail) (event : Event) :
    keys.Pairwise (OpenedBefore (history ++ [event])) := by
  refine (follows.ordered.sublist kept).imp_of_mem ?_
  intro first second firstMember secondMember before
  exact before.append (follows.occupied (kept.subset firstMember))
    (follows.occupied (kept.subset secondMember)) event

theorem opened_append {key : Key} (member : key ∈ space.keys.tail) (event : Event) :
    ∃ place, LastOpens (history ++ [event]) key place := by
  obtain ⟨place,last⟩ := follows.opened key member
  exact ⟨place,last.append (follows.occupied member) event⟩

theorem aged_append {key : Key} {atoms : List Atom} (kept : atoms.Sublist (space.bucket key))
    {event : Event} (others : ∀ a ∈ atoms, event ≠ .stored a) :
    atoms.Pairwise (fun first second =>
      age (history ++ [event]) second < age (history ++ [event]) first) := by
  refine ((follows.aged key).sublist kept).imp_of_mem ?_
  intro first second firstMember secondMember less
  rw [age_append,age_append,if_neg (others first firstMember),if_neg (others second secondMember)]
  exact Nat.succ_lt_succ less

theorem add {a : Atom} (absent : a ∉ space.toList) :
    Follows (history ++ [.stored a]) (space.add a).2 := by
  obtain ⟨_,bucket,keys⟩ := Space.add_of_not_mem absent
  have others (key : Key) (other : Atom) (inside : other ∈ space.bucket key) :
      Event.stored a ≠ .stored other := by
    intro given
    obtain ⟨⟩ := given
    exact absent ((space.mem_bucket_iff key a).mp inside).1
  have opens (closed : Key.of a ∉ space.keys) :
      LastOpens (history ++ [.stored a]) (.of a) history.length := by
    refine lastOpens_length ?_ ⟨a,(present_append_stored _ _ _).mpr (.inl rfl),rfl⟩
    intro given
    obtain ⟨other,present,filed⟩ := given
    exact closed ((space.mem_keys _).mpr (.inr ⟨other,(follows.present other).mpr present,filed⟩))
  refine ⟨?present,?aged,?opened,?ordered⟩
  case present =>
    intro other
    rw [Space.mem_add,present_append_stored,follows.present]
  case aged =>
    intro key
    rw [bucket]
    have kept := follows.aged_append (List.Sublist.refl _) (others key)
    split
    · refine List.pairwise_append.mpr ⟨kept,List.pairwise_singleton _ _,?_⟩
      intro first inside second last
      rw [List.mem_singleton.mp last,age_append,age_append,if_pos rfl,
        if_neg (others key first inside)]
      exact Nat.succ_pos _
    · exact kept
  case opened =>
    intro key member
    rw [keys] at member
    split at member
    · exact follows.opened_append member _
    · next closed =>
      rw [Space.keys_eq,List.cons_append,List.tail_cons,List.mem_append,List.mem_singleton] at member
      rcases member with old | rfl
      · exact follows.opened_append old _
      · exact ⟨_,opens closed⟩
  case ordered =>
    rw [keys]
    split
    · exact follows.ordered_append (List.Sublist.refl _) _
    · next closed =>
      rw [Space.keys_eq,List.cons_append,List.tail_cons]
      refine List.pairwise_append.mpr
        ⟨follows.ordered_append (List.Sublist.refl _) _,List.pairwise_singleton _ _,?_⟩
      intro first member second last
      obtain ⟨place,firstOpens⟩ := follows.opened first member
      rw [List.mem_singleton.mp last]
      exact ⟨place,_,firstOpens.append (follows.occupied member) _,opens closed,
        place_lt_of_opens firstOpens.1⟩

theorem remove {a : Atom} (stored : a ∈ space.toList) :
    Follows (history ++ [.removed a]) (space.remove a).2 := by
  obtain ⟨_,bucket,keys⟩ := Space.remove_of_mem stored
  have kept : (space.remove a).2.keys.tail.Sublist space.keys.tail := by
    rw [keys]
    split
    · next closes =>
      rw [Space.keys_eq,List.filter_cons_of_pos (by simpa using closes.2.symm),List.tail_cons]
      exact List.filter_sublist
    · exact List.Sublist.refl _
  refine ⟨?present,?aged,?opened,follows.ordered_append kept _⟩
  case present =>
    intro other
    rw [Space.mem_remove,present_append_removed,follows.present]
  case aged =>
    intro key
    have part : ((space.remove a).2.bucket key).Sublist (space.bucket key) := by
      rw [bucket]
      split
      · exact List.erase_sublist
      · exact List.Sublist.refl _
    exact follows.aged_append part fun _ _ => nofun
  case opened =>
    intro key member
    exact follows.opened_append (kept.subset member) _

/-! ### Calls and runs of calls -/

theorem storing (a : Atom) : Follows (history ++ Change.storing a space) (space.add a).2 := by
  rw [Change.storing]
  split
  · next new => exact follows.add ((space.add_fst a).mp new)
  · next old =>
    rw [space.add_fst,not_not] at old
    rw [Space.add_of_mem old,List.append_nil]
    exact follows

omit follows in
theorem storingAll (atoms : List Atom) : ∀ {history : List Event} {space : Space},
    Follows history space →
    Follows (history ++ Change.storingAll atoms space) (space.addAll atoms).2 := by
  induction atoms with
  | nil =>
    intro history space follows
    rw [Change.storingAll,List.append_nil]
    exact follows
  | cons a atoms ih =>
    intro history space follows
    rw [Change.storingAll,← List.append_assoc]
    exact ih (follows.storing a)

theorem change (change : Change) : Follows (history ++ change.events space) (change.apply space) := by
  cases change with
  | add a => exact follows.storing a
  | addAll atoms => exact follows.storingAll atoms
  | remove a =>
    rw [Change.events,Change.apply]
    split
    · next found => exact follows.remove ((space.remove_fst a).mp found)
    · next missing =>
      rw [space.remove_fst] at missing
      rw [Space.remove_of_not_mem missing,List.append_nil]
      exact follows

omit follows in
theorem changes (changes : List Change) : ∀ {history : List Event} {space : Space},
    Follows history space →
    Follows (history ++ Change.eventsAll changes space) (Change.applyAll changes space) := by
  induction changes with
  | nil =>
    intro history space follows
    rw [Change.eventsAll,List.append_nil]
    exact follows
  | cons change changes ih =>
    intro history space follows
    rw [Change.eventsAll,← List.append_assoc]
    exact ih (follows.change change)

end Follows

/-! ### The space after any calls -/

/-- A space that refines the set of the atoms that its history leaves in place, listed in the
order of the history. -/
structure Refines (history : List Event) (space : Space) : Prop where
  add_iff : ∀ a, (space.add a).1 = true ↔ ¬Present history a
  remove_iff : ∀ a, (space.remove a).1 = true ↔ Present history a
  contains_iff : ∀ a, space.contains a = true ↔ Present history a
  /-- The counter, the number of the atoms, and the length of the list of all are the same. -/
  count_eq_card : space.count = {a | Present history a}.ncard
  count_eq_length : space.count = space.toList.length
  all_once : space.toList.Nodup
  mem_all : ∀ a, a ∈ space.toList ↔ Present history a
  /-- A bucket holds the atoms of its key, the one that was stored longest ago first. -/
  mem_bucket : ∀ key a, a ∈ space.bucket key ↔ Present history a ∧ Key.of a = key
  bucket_ordered : ∀ key, (space.bucket key).Pairwise (fun first second =>
    age history second < age history first)
  /-- The loose atoms come first, then the headed buckets as they were last opened. -/
  all_eq : space.toList = space.bucket .loose ++ space.keys.tail.flatMap space.bucket
  opened : ∀ key ∈ space.keys.tail, ∃ place, LastOpens history key place
  keys_ordered : space.keys.tail.Pairwise (OpenedBefore history)
  keys_once : space.keys.Nodup
  loose_first : space.keys.head? = some .loose
  mem_keys : ∀ key, key ∈ space.keys ↔ key = .loose ∨ Occupied history key
  /-- The keys in order are the keys of the buckets, of which no two have the same. -/
  mem_keys_iff : ∀ key, key ∈ space.keys ↔ key ∈ space.buckets.map Prod.fst
  buckets_once : (space.buckets.map Prod.fst).Nodup

theorem Space.nodup_toList (space : Space) : space.toList.Nodup := by
  refine List.nodup_flatMap.mpr ⟨fun key _ => space.nodup_bucket key,?_⟩
  refine List.Pairwise.imp ?_ space.consistent.orderOnce
  intro first second differ a firstInside secondInside
  apply differ
  rw [← space.consistent.filed first a firstInside,space.consistent.filed second a secondInside]

/-- Whatever is called on a new space, it refines the set and the order that its history defines. -/
theorem applyAll_refines (changes : List Change) :
    Refines (Change.eventsAll changes ∅) (Change.applyAll changes ∅) := by
  have follows := Follows.empty.changes changes
  rw [List.nil_append] at follows
  generalize Change.eventsAll changes ∅ = history at follows ⊢
  generalize Change.applyAll changes ∅ = space at follows ⊢
  have set : {a | Present history a} = (space.toList.toFinset : Set Atom) := by
    ext a
    rw [Set.mem_ofPred_eq,Finset.mem_coe,List.mem_toFinset,follows.present]
  exact {
    add_iff := fun a => (space.add_fst a).trans (not_congr (follows.present a))
    remove_iff := fun a => (space.remove_fst a).trans (follows.present a)
    contains_iff := fun a => (space.contains_iff a).trans (follows.present a)
    count_eq_card := by
      rw [set,Set.ncard_coe_finset,List.toFinset_card_of_nodup space.nodup_toList,space.count_eq]
    count_eq_length := space.count_eq
    all_once := space.nodup_toList
    mem_all := follows.present
    mem_bucket := fun key a => (space.mem_bucket_iff key a).trans (and_congr_left' (follows.present a))
    bucket_ordered := follows.aged
    all_eq := by
      rw [Index.toList,← Space.keys,space.keys_eq,List.flatMap_cons,List.tail_cons]
    opened := follows.opened
    keys_ordered := follows.ordered
    keys_once := space.consistent.orderOnce
    loose_first := space.consistent.looseFirst
    mem_keys := by
      intro key
      rw [space.mem_keys]
      refine or_congr_right (exists_congr fun a => and_congr_left' (follows.present a))
    mem_keys_iff := by
      intro key
      rw [Space.keys,space.consistent.mem_order,Index.find?,List.lookup_isSome_iff]
      simp
    buckets_once := space.consistent.keysOnce }

end AtomLogic
