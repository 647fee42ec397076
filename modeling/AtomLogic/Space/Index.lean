import AtomLogic.Atom

/-! The index of a space. An expression headed by a symbol is filed under that symbol and
every other atom among the loose ones. The atoms of a key are kept twice, in the order in
which they came and as a set to look them up in. Beside the buckets stand the keys in the
order in which their buckets were opened, that of the loose atoms always first, and the
number of all atoms. A headed bucket that loses its last atom is closed. -/

namespace AtomLogic

inductive Key where
  | loose
  | headed (name : String)
deriving DecidableEq, Inhabited, Repr

def Key.of (a : Atom) : Key :=
  match a.head? with
  | some name => .headed name
  | none => .loose

/-- Atoms without repetition: in the order in which they came, and as a set. -/
structure Bucket where
  atoms : List Atom
  members : List Atom
  atomsOnce : atoms.Nodup
  membersOnce : members.Nodup
  mem_members : ∀ a, a ∈ members ↔ a ∈ atoms
deriving DecidableEq, Repr

namespace Bucket

def empty : Bucket := ⟨[],[],List.nodup_nil,List.nodup_nil,fun _ => Iff.rfl⟩

def contains (bucket : Bucket) (a : Atom) : Bool := bucket.members.contains a

@[simp] theorem contains_iff (bucket : Bucket) (a : Atom) :
    bucket.contains a = true ↔ a ∈ bucket.atoms := by
  rw [contains,List.contains_iff_mem,bucket.mem_members]

def insert (bucket : Bucket) (a : Atom) (new : ¬bucket.contains a) : Bucket where
  atoms := bucket.atoms ++ [a]
  members := a :: bucket.members
  atomsOnce := by
    rw [contains_iff] at new
    refine List.nodup_append.mpr ⟨bucket.atomsOnce,by simp,?_⟩
    intro other old last same
    exact fun equal => new (List.mem_singleton.mp same ▸ equal ▸ old)
  membersOnce := by
    rw [contains,List.contains_iff_mem] at new
    exact List.nodup_cons.mpr ⟨new,bucket.membersOnce⟩
  mem_members := by
    intro other
    rw [List.mem_cons,bucket.mem_members,List.mem_append,List.mem_singleton,or_comm]

def erase (bucket : Bucket) (a : Atom) : Bucket where
  atoms := bucket.atoms.erase a
  members := bucket.members.erase a
  atomsOnce := bucket.atomsOnce.erase a
  membersOnce := bucket.membersOnce.erase a
  mem_members := by
    intro other
    rw [bucket.atomsOnce.mem_erase_iff,bucket.membersOnce.mem_erase_iff,bucket.mem_members]

end Bucket

/-- Buckets by their keys, the keys in order, and the number of atoms. -/
structure Index where
  buckets : List (Key × Bucket)
  order : List Key
  count : Nat
deriving DecidableEq, Repr

namespace Index

/-- Only the bucket of the loose atoms is there from the start. -/
def empty : Index := ⟨[(.loose,.empty)],[.loose],0⟩

def find? (index : Index) (key : Key) : Option Bucket := index.buckets.lookup key

def bucket (index : Index) (key : Key) : List Atom :=
  match index.find? key with
  | some bucket => bucket.atoms
  | none => []

def toList (index : Index) : List Atom := index.order.flatMap index.bucket

def contains (index : Index) (a : Atom) : Bool :=
  match index.find? (.of a) with
  | some bucket => bucket.contains a
  | none => false

/-- Puts a bucket in the place of any other of its key. The number of atoms becomes the
one given. -/
def put (index : Index) (key : Key) (bucket : Bucket) (count : Nat) : Index where
  buckets := (key,bucket) :: index.buckets.filter (fun entry => entry.1 != key)
  order := index.order
  count := count

/-- Opens the bucket of a key that has none, which comes last in the order. -/
def openAt (index : Index) (key : Key) (bucket : Bucket) (count : Nat) : Index :=
  { index.put key bucket count with order := index.order ++ [key] }

def closeAt (index : Index) (key : Key) : Index where
  buckets := index.buckets.filter (fun entry => entry.1 != key)
  order := index.order.filter (· != key)
  count := index.count

def add (a : Atom) (index : Index) : Bool × Index :=
  match index.find? (.of a) with
  | some bucket =>
    if old : bucket.contains a then (false,index)
    else (true,index.put (.of a) (bucket.insert a old) (index.count + 1))
  | none =>
    (true,index.openAt (.of a) (Bucket.empty.insert a (by simp [Bucket.empty])) (index.count + 1))

def remove (a : Atom) (index : Index) : Bool × Index :=
  match index.find? (.of a) with
  | none => (false,index)
  | some bucket =>
    if bucket.contains a then
      let left := index.put (.of a) (bucket.erase a) (index.count - 1)
      (true,if (bucket.erase a).atoms.isEmpty && Key.of a != .loose then left.closeAt (.of a) else left)
    else (false,index)

/-- The parts of an index are in step. -/
structure Consistent (index : Index) : Prop where
  keysOnce : (index.buckets.map Prod.fst).Nodup
  orderOnce : index.order.Nodup
  looseFirst : index.order.head? = some .loose
  mem_order : ∀ key, key ∈ index.order ↔ (index.find? key).isSome
  filed : ∀ key, ∀ a ∈ index.bucket key, Key.of a = key
  occupied : ∀ name, .headed name ∈ index.order → index.bucket (.headed name) ≠ []
  counted : index.count = index.toList.length

/-! ### Looking buckets up -/

theorem lookup_filter_ne (buckets : List (Key × Bucket)) (key other : Key) :
    (buckets.filter (fun entry => entry.1 != key)).lookup other =
      if other = key then none else buckets.lookup other := by
  induction buckets with
  | nil => simp
  | cons entry rest ih =>
    obtain ⟨first,bucket⟩ := entry
    by_cases same : first = key
    · subst same
      rw [List.filter_cons_of_neg (by simp),ih]
      split
      · rfl
      · next differ => rw [List.lookup_cons,beq_eq_false_iff_ne.mpr differ]
    · rw [List.filter_cons_of_pos (by simpa using same),List.lookup_cons,List.lookup_cons,ih]
      split
      · next found =>
        rw [if_neg]
        rintro rfl
        exact same (eq_of_beq found).symm
      · rfl

theorem find?_put (index : Index) (key : Key) (bucket : Bucket) (count : Nat) (other : Key) :
    (index.put key bucket count).find? other =
      if other = key then some bucket else index.find? other := by
  rw [find?,put,List.lookup_cons,lookup_filter_ne]
  split
  · next found => rw [if_pos (eq_of_beq found)]
  · next missed =>
    rw [beq_eq_false_iff_ne] at missed
    rw [if_neg missed,if_neg missed,find?]

theorem bucket_put (index : Index) (key : Key) (bucket : Bucket) (count : Nat) (other : Key) :
    (index.put key bucket count).bucket other =
      if other = key then bucket.atoms else index.bucket other := by
  by_cases same : other = key <;> simp [Index.bucket,find?_put,same]

theorem find?_closeAt (index : Index) (key other : Key) :
    (index.closeAt key).find? other = if other = key then none else index.find? other :=
  lookup_filter_ne _ _ _

theorem bucket_closeAt (index : Index) (key other : Key) :
    (index.closeAt key).bucket other = if other = key then [] else index.bucket other := by
  by_cases same : other = key <;> simp [bucket,find?_closeAt,same]

theorem find?_openAt (index : Index) (key : Key) (bucket : Bucket) (count : Nat) (other : Key) :
    (index.openAt key bucket count).find? other =
      if other = key then some bucket else index.find? other :=
  find?_put index key bucket count other

theorem bucket_openAt (index : Index) (key : Key) (bucket : Bucket) (count : Nat) (other : Key) :
    (index.openAt key bucket count).bucket other =
      if other = key then bucket.atoms else index.bucket other :=
  bucket_put index key bucket count other

theorem bucket_of_find? {index : Index} {key : Key} {bucket : Bucket}
    (found : index.find? key = some bucket) : index.bucket key = bucket.atoms := by
  rw [Index.bucket,found]

theorem contains_iff (index : Index) (a : Atom) :
    index.contains a = true ↔ a ∈ index.bucket (.of a) := by
  rw [contains,bucket]
  split
  · exact Bucket.contains_iff _ a
  · simp

theorem keysOnce_put {index : Index} (once : (index.buckets.map Prod.fst).Nodup) (key : Key)
    (bucket : Bucket) (count : Nat) :
    ((index.put key bucket count).buckets.map Prod.fst).Nodup := by
  rw [put,List.map_cons,List.nodup_cons]
  refine ⟨?_,once.sublist (List.filter_sublist.map _)⟩
  intro member
  obtain ⟨entry,kept,same⟩ := List.mem_map.mp member
  simpa [same] using (List.mem_filter.mp kept).2

theorem length_flatMap_of_update {order : List Key} (once : order.Nodup) {key : Key}
    (member : key ∈ order) (old new : Key → List Atom)
    (others : ∀ other, other ≠ key → new other = old other) :
    (order.flatMap new).length + (old key).length =
      (order.flatMap old).length + (new key).length := by
  induction order with
  | nil => cases member
  | cons first rest ih =>
    obtain ⟨absent,once⟩ := List.nodup_cons.mp once
    rw [List.flatMap_cons,List.flatMap_cons,List.length_append,List.length_append]
    rcases List.mem_cons.mp member with rfl | later
    · have same : rest.flatMap new = rest.flatMap old := by
        rw [List.flatMap_def,List.flatMap_def,List.map_congr_left]
        exact fun other inside => others other fun equal => absent (equal ▸ inside)
      rw [same]
      omega
    · have differ : first ≠ key := fun equal => absent (equal ▸ later)
      have rest := ih once later
      rw [others first differ]
      omega

theorem flatMap_filter_ne (order : List Key) {key : Key} {atoms : Key → List Atom}
    (none : atoms key = []) : (order.filter (· != key)).flatMap atoms = order.flatMap atoms := by
  induction order with
  | nil => rfl
  | cons first rest ih =>
    by_cases same : first = key
    · subst same
      rw [List.filter_cons_of_neg (by simp),ih,List.flatMap_cons,none,List.nil_append]
    · rw [List.filter_cons_of_pos (by simpa using same),List.flatMap_cons,List.flatMap_cons,ih]

/-! ### The parts stay in step -/

theorem consistent_empty : empty.Consistent where
  keysOnce := by simp [empty]
  orderOnce := by simp [empty]
  looseFirst := rfl
  mem_order key := by
    cases key <;> simp [empty,find?]
  filed key a member := by
    cases key <;> cases member
  occupied name member := by simp [empty] at member
  counted := rfl

namespace Consistent

variable {index : Index} (consistent : index.Consistent)
include consistent

/-- A bucket that is there takes other atoms of its key. -/
theorem put {key : Key} (member : key ∈ index.order) (bucket : Bucket)
    (filed : ∀ a ∈ bucket.atoms, Key.of a = key) (occupied : key ≠ .loose → bucket.atoms ≠ [])
    {count : Nat} (counted : count + (index.bucket key).length =
      index.count + bucket.atoms.length) : (index.put key bucket count).Consistent where
  keysOnce := keysOnce_put consistent.keysOnce key bucket count
  orderOnce := consistent.orderOnce
  looseFirst := consistent.looseFirst
  mem_order other := by
    rw [find?_put]
    split
    · next same => exact iff_of_true (same ▸ member) rfl
    · exact consistent.mem_order other
  filed other a inside := by
    rw [bucket_put] at inside
    split at inside
    · next same => rw [same,filed a inside]
    · exact consistent.filed other a inside
  occupied name opened := by
    rw [bucket_put]
    split
    · next same => exact occupied (by rw [← same]; nofun)
    · exact consistent.occupied name opened
  counted := by
    have total := length_flatMap_of_update consistent.orderOnce member
      index.bucket (index.put key bucket count).bucket
      (fun other differ => by rw [bucket_put,if_neg differ])
    rw [bucket_put,if_pos rfl] at total
    have before := consistent.counted
    rw [toList] at before ⊢
    change count = (index.order.flatMap _).length
    omega

/-- A bucket is opened with what it holds. -/
theorem openAt {key : Key} (absent : key ∉ index.order) (bucket : Bucket)
    (filed : ∀ a ∈ bucket.atoms, Key.of a = key) (occupied : bucket.atoms ≠ []) {count : Nat}
    (counted : count = index.count + bucket.atoms.length) :
    (index.openAt key bucket count).Consistent where
  keysOnce := keysOnce_put consistent.keysOnce key bucket count
  orderOnce := by
    refine List.nodup_append.mpr ⟨consistent.orderOnce,by simp,?_⟩
    intro other old last same
    exact fun equal => absent (List.mem_singleton.mp same ▸ equal ▸ old)
  looseFirst := by
    rw [Index.openAt,List.head?_append,consistent.looseFirst,Option.some_or]
  mem_order other := by
    rw [Index.openAt,List.mem_append,List.mem_singleton,← Index.openAt,find?_openAt]
    split
    · next same => exact iff_of_true (.inr same) rfl
    · next differ => rw [or_iff_left differ,consistent.mem_order]
  filed other a inside := by
    rw [bucket_openAt] at inside
    split at inside
    · next same => rw [same,filed a inside]
    · exact consistent.filed other a inside
  occupied name opened := by
    rw [bucket_openAt]
    split
    · exact occupied
    · next differ =>
      rcases List.mem_append.mp opened with old | new
      · exact consistent.occupied name old
      · exact absurd (List.mem_singleton.mp new) differ
  counted := by
    have old : index.order.flatMap (index.openAt key bucket count).bucket = index.toList := by
      rw [toList,List.flatMap_def,List.flatMap_def,List.map_congr_left]
      intro other member
      have differ : other ≠ key := fun equal => absent (equal ▸ member)
      rw [bucket_openAt,if_neg differ]
    change count = ((index.order ++ [key]).flatMap (index.openAt key bucket count).bucket).length
    rw [List.flatMap_append,old,List.flatMap_singleton,bucket_openAt,if_pos rfl,List.length_append,
      counted,consistent.counted]

theorem closeAt {key : Key} (headed : key ≠ .loose) (member : key ∈ index.order)
    (bucket : Bucket) {count : Nat} (counted : count + (index.bucket key).length = index.count) :
    ((index.put key bucket count).closeAt key).Consistent where
  keysOnce := (keysOnce_put consistent.keysOnce key bucket count).sublist
    (List.filter_sublist.map _)
  orderOnce := consistent.orderOnce.sublist List.filter_sublist
  looseFirst := by
    have first := consistent.looseFirst
    change (index.order.filter (· != key)).head? = some .loose
    cases order : index.order with
    | nil => rw [order] at first; cases first
    | cons front rest =>
      rw [order] at first
      obtain rfl := Option.some.inj first
      rw [List.filter_cons_of_pos (by simpa using headed.symm),List.head?_cons]
  mem_order other := by
    change other ∈ index.order.filter (· != key) ↔ _
    rw [find?_closeAt,find?_put,List.mem_filter,bne_iff_ne]
    split
    · next same => simp [same]
    · next differ => rw [consistent.mem_order,and_iff_left differ]
  filed other a inside := by
    rw [bucket_closeAt,bucket_put] at inside
    split at inside
    · cases inside
    · exact consistent.filed other a inside
  occupied name opened := by
    obtain ⟨opened,differ⟩ := List.mem_filter.mp opened
    rw [bne_iff_ne] at differ
    rw [bucket_closeAt,bucket_put,if_neg differ,if_neg differ]
    exact consistent.occupied name opened
  counted := by
    have closed : ((index.put key bucket count).closeAt key).bucket key = [] := by
      rw [bucket_closeAt,if_pos rfl]
    have total := length_flatMap_of_update consistent.orderOnce member
      index.bucket ((index.put key bucket count).closeAt key).bucket
      (fun other differ => by rw [bucket_closeAt,bucket_put,if_neg differ,if_neg differ])
    rw [closed,List.length_nil] at total
    have before := consistent.counted
    rw [toList] at before
    change count = ((index.order.filter (· != key)).flatMap _).length
    rw [flatMap_filter_ne _ closed]
    omega

theorem add (a : Atom) : (index.add a).2.Consistent := by
  rw [Index.add]
  split
  · next bucket found =>
    have member := (consistent.mem_order _).mpr (Option.isSome_of_eq_some found)
    have atoms := bucket_of_find? found
    split
    · exact consistent
    · refine consistent.put member _ ?_ ?_ ?_
      · intro other inside
        rcases List.mem_append.mp inside with old | new
        · exact consistent.filed _ other (atoms ▸ old)
        · rw [List.mem_singleton.mp new]
      · intro _
        simp [Bucket.insert]
      · simp only [Bucket.insert,atoms,List.length_append,List.length_singleton]
        omega
  · next missing =>
    refine consistent.openAt ?_ _ ?_ ?_ rfl
    · rw [consistent.mem_order,missing]
      simp
    · intro other inside
      rw [List.mem_singleton.mp inside]
    · simp [Bucket.insert]

theorem remove (a : Atom) : (index.remove a).2.Consistent := by
  rw [Index.remove]
  split
  · exact consistent
  · next bucket found =>
    have member := (consistent.mem_order _).mpr (Option.isSome_of_eq_some found)
    have atoms := bucket_of_find? found
    split
    · next stored =>
      rw [Bucket.contains_iff] at stored
      have size : (bucket.erase a).atoms.length + 1 = bucket.atoms.length := by
        rw [Bucket.erase,List.length_erase_of_mem stored]
        exact Nat.succ_pred_eq_of_pos (List.length_pos_of_mem stored)
      have total : 0 < index.count := by
        rw [consistent.counted]
        exact List.length_pos_of_mem (List.mem_flatMap.mpr ⟨_,member,atoms ▸ stored⟩)
      dsimp only
      split
      · next emptied =>
        rw [Bool.and_eq_true,List.isEmpty_iff,bne_iff_ne] at emptied
        rw [emptied.1,List.length_nil] at size
        exact consistent.closeAt emptied.2 member _ (by rw [atoms]; omega)
      · next kept =>
        refine consistent.put member _ ?_ ?_ (by rw [atoms]; omega)
        · intro other inside
          exact consistent.filed _ other (atoms ▸ List.mem_of_mem_erase inside)
        · intro headed empty
          simp [empty,headed] at kept
    · exact consistent

end Consistent
end Index
end AtomLogic
