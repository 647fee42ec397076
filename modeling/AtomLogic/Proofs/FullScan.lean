import AtomLogic.Proofs.Goals
import AtomLogic.Space.Search

/-! What the index skips. A pattern headed by a symbol is tried on the atoms of its own bucket alone. Of
the other atoms only variables and expressions headed by one could match it, so apart from these the
answers are those of a scan of all atoms, in the same order. -/

namespace AtomLogic

/-! ### The buckets among all atoms -/

theorem Space.filter_flatMap_bucket {space : Space} {key : Key} {keys : List Key}
    (absent : key ∉ keys) : (keys.flatMap space.bucket).filter (fun a => Key.of a = key) = [] := by
  rw [List.filter_eq_nil_iff]
  intro a inside
  obtain ⟨other,member,filed⟩ := List.mem_flatMap.mp inside
  rw [space.consistent.filed other a filed,decide_eq_true_iff]
  exact fun same => absent (same ▸ member)

/-- A bucket lists the atoms of its key in the order in which they stand among all atoms. -/
theorem Space.filter_toList (space : Space) (key : Key) :
    space.toList.filter (fun a => Key.of a = key) = space.bucket key := by
  by_cases opened : key ∈ space.order
  · obtain ⟨before,after,split⟩ := List.append_of_mem opened
    have once := space.consistent.orderOnce
    rw [split] at once
    have own : (space.bucket key).filter (fun a => Key.of a = key) = space.bucket key :=
      List.filter_eq_self.mpr fun a filed => decide_eq_true (space.consistent.filed key a filed)
    rw [Index.toList,split,List.flatMap_append,List.flatMap_cons,List.filter_append,
      List.filter_append,own,filter_flatMap_bucket,filter_flatMap_bucket,List.nil_append,
      List.append_nil]
    · exact (List.nodup_cons.mp once.of_append_right).1
    · exact fun earlier => (List.nodup_append.mp once).2.2 key earlier key List.mem_cons_self rfl
  · have empty : space.bucket key = [] := by
      rw [Index.bucket,Option.not_isSome_iff_eq_none.mp (mt (space.consistent.mem_order key).mpr opened)]
    rw [Index.toList,filter_flatMap_bucket opened,empty]

/-! ### What a headed pattern matches -/

theorem filter_unifyAll (pattern : Atom) (chosen : Atom → Bool) (atoms : List Atom) :
    (unifyAll pattern atoms).filter (fun answer => chosen answer.1) =
      unifyAll pattern (atoms.filter chosen) := by
  rw [unifyAll,unifyAll,List.filter_filterMap,List.filterMap_filter]
  refine List.filterMap_congr fun a _ => ?_
  cases unify pattern a with
  | none => simp
  | some s => rw [Option.map_some,Option.filter_some]

/-- An atom that unifies with what a symbol heads is headed by that symbol, unless an instance of it
could have another head. -/
theorem head?_of_unify {pattern a : Atom} {name : String} (headed : pattern.head? = some name)
    (rigid : a.rigid = true) {s : Substitution} (unified : unify pattern a = some s) :
    a.head? = some name := by
  rw [← (Atom.rigid_instantiate rigid s.value).2]
  exact (congrArg Atom.head? (unify_sound unified).2).symm.trans (Atom.head?_instantiate headed _)

theorem Atom.rigid_of_head? {a : Atom} {name : String} (headed : a.head? = some name) :
    a.rigid = true := by
  obtain ⟨arguments,rfl⟩ := eq_of_head? headed
  rfl

theorem unifyAll_headed {pattern : Atom} {name : String} (headed : pattern.head? = some name)
    (atoms : List Atom) :
    unifyAll pattern (atoms.filter Atom.rigid) =
      unifyAll pattern (atoms.filter fun a => Key.of a = .headed name) := by
  rw [unifyAll,unifyAll,List.filterMap_filter,List.filterMap_filter]
  refine List.filterMap_congr fun a _ => ?_
  simp only [decide_eq_true_iff,Space.key_of_eq_headed]
  by_cases own : a.head? = some name
  · rw [if_pos (Atom.rigid_of_head? own),if_pos own]
  · rw [if_neg own]
    split
    · next rigid =>
      cases unified : unify pattern a with
      | none => rfl
      | some s => exact absurd (head?_of_unify headed rigid unified) own
    · rfl

/-! ### One match at a time -/

/-- Calls of `next` give the answers one after the other, and then no more. -/
inductive Search.Yields : Search → Answers → Prop where
  | done {search : Search} : search.next.1 = none → search.Yields []
  | more {search later : Search} {answer : Atom × Substitution} {answers : Answers} :
      search.next = (some answer,later) → later.Yields answers → search.Yields (answer :: answers)

theorem Search.Yields.of_next_eq {search other : Search} {answers : Answers}
    (yields : search.Yields answers) (same : other.next = search.next) : other.Yields answers := by
  cases yields with
  | done none => exact .done (same ▸ none)
  | more found rest => exact .more (same.trans found) rest

theorem Search.yields_unifyAll (pattern : Atom) (candidates : List Atom) :
    (Search.mk pattern candidates).Yields (unifyAll pattern candidates) := by
  induction candidates with
  | nil => exact .done rfl
  | cons a rest ih =>
    rw [unifyAll,List.filterMap_cons]
    cases unified : unify pattern a with
    | none =>
      refine ih.of_next_eq ?_
      rw [next,next,firstMatch,unified]
    | some s =>
      refine .more ?_ ih
      rw [next,firstMatch,unified]

/-- The indexed query agrees with a scan of all atoms, and where it skips atoms it is known which: for
a pattern that a symbol heads the answers are those of the scan without the ones whose atom is a
variable or an expression headed by a variable. A search gives them one at a time, and something
matches where there are any. -/
theorem query_eq_unifyAll (space : Space) (pattern : Atom) :
    (space.query pattern =
      if pattern.head?.isSome then
        (unifyAll pattern space.toList).filter fun answer => answer.1.rigid
      else unifyAll pattern space.toList) ∧
      (Search.of space pattern).Yields (space.query pattern) ∧
      (space.matchesAny pattern = true ↔ space.query pattern ≠ []) := by
  refine ⟨?scan,Search.yields_unifyAll pattern _,?any⟩
  case scan =>
    rw [Space.query,Space.candidates]
    cases head : pattern.head? with
    | none =>
      have loose : Key.of pattern = .loose := by rw [Key.of,head]
      rw [loose]
      rfl
    | some name =>
      rw [(Space.key_of_eq_headed pattern name).mpr head,Option.isSome_some,if_pos rfl,
        filter_unifyAll,unifyAll_headed head,space.filter_toList]
  case any =>
    rw [Space.matchesAny,List.any_eq_true,Space.query,unifyAll,ne_eq,List.filterMap_eq_nil_iff]
    simp [canUnify,Option.isSome_iff_ne_none]

/-- Of four stored atoms that match, the query leaves out the variable and what a variable heads. -/
theorem query_eq_unifyAll_skipping :
    let space := Space.ofList [.expr [.sym "f",.sym "a"],.var "z",.expr [.sym "h",.sym "a"],
      .expr [.var "g",.sym "b"],.expr [.sym "f",.var "y"]]
    let pattern : Atom := .expr [.sym "f",.var "x"]
    let answers : Answers := [(.expr [.sym "f",.sym "a"],⟨[("x",.sym "a")]⟩),
      (.expr [.sym "f",.var "y"],⟨[("x",.var "y")]⟩)]
    unifyAll pattern space.toList = (.var "z",⟨[("z",pattern)]⟩) ::
        (.expr [.var "g",.sym "b"],⟨[("g",.sym "f"),("x",.sym "b")]⟩) :: answers ∧
      space.query pattern = answers ∧ (Search.of space pattern).Yields answers ∧
      space.matchesAny pattern = true := by
  intro space pattern answers
  have all : unifyAll pattern space.toList = (.var "z",⟨[("z",pattern)]⟩) ::
      (.expr [.var "g",.sym "b"],⟨[("g",.sym "f"),("x",.sym "b")]⟩) :: answers := by
    decide +kernel
  obtain ⟨scan,yields,any⟩ := query_eq_unifyAll space pattern
  have found : space.query pattern = answers := by
    rw [scan,all]
    rfl
  rw [found] at yields any
  exact ⟨all,found,yields,any.mpr (List.cons_ne_nil _ _)⟩

end AtomLogic
