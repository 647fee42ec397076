import AtomLogic.Rule
import AtomLogic.Unification
import AtomLogic.Proofs.Composition

/-! Renaming variables. Nothing looks into the name of a variable but to compare it with others, so
where different names stay different, what is done with renamed atoms is what is done with the atoms
themselves, renamed. -/

namespace AtomLogic

namespace Atom

variable {names : String → String}

@[simp] theorem rename_sym (symbol : String) : (sym symbol).rename names = .sym symbol := rfl

@[simp] theorem rename_var (name : String) : (var name).rename names = .var (names name) := rfl

@[simp] theorem rename_expr (children : List Atom) :
    (expr children).rename names = .expr (children.map (rename names)) := instantiate_expr _ _

theorem rename_congr {others : String → String} {a : Atom}
    (same : ∀ name, a.mentions name = true → names name = others name) :
    a.rename names = a.rename others :=
  instantiate_congr fun name inside => congrArg Atom.var (same name inside)

theorem rename_of_fixed {a : Atom} (fixed : ∀ name, a.mentions name = true → names name = name) :
    a.rename names = a :=
  instantiate_of_not_mentions fun name inside => congrArg Atom.var (fixed name inside)

theorem head?_rename (a : Atom) : (a.rename names).head? = a.head? := by
  cases a with
  | sym symbol => rfl
  | var name => rfl
  | expr children =>
    rw [rename_expr]
    cases children with
    | nil => rfl
    | cons first others =>
      cases first with
      | sym symbol => rfl
      | var name => rfl
      | expr children =>
        rw [List.map_cons,rename_expr]
        rfl

theorem arguments_rename (a : Atom) :
    (a.rename names).arguments = a.arguments.map (rename names) := by
  cases a with
  | sym symbol => rfl
  | var name => rfl
  | expr children =>
    rw [rename_expr]
    cases children <;> rfl

theorem sizeAll_map {change : Atom → Atom} {as : List Atom}
    (same : ∀ a ∈ as, (change a).size = a.size) : sizeAll (as.map change) = sizeAll as := by
  induction as with
  | nil => rfl
  | cons a as ih =>
    rw [List.forall_mem_cons] at same
    rw [List.map_cons,sizeAll,sizeAll,same.1,ih same.2]

theorem size_rename (a : Atom) : (a.rename names).size = a.size := by
  induction a with
  | sym symbol => rfl
  | var name => rfl
  | expr children ih => rw [rename_expr,size,size,sizeAll_map ih]

theorem hasVariables_rename (a : Atom) : (a.rename names).hasVariables = a.hasVariables := by
  rw [Bool.eq_iff_iff,hasVariables_iff,hasVariables_iff]
  constructor
  · rintro ⟨_,inside⟩
    obtain ⟨name,original,_⟩ := (mentions_instantiate _ _ a).mp inside
    exact ⟨name,original⟩
  · rintro ⟨name,original⟩
    exact ⟨names name,(mentions_instantiate _ _ a).mpr ⟨name,original,(mentions_var _ _).mpr rfl⟩⟩

theorem rename_leftInverse {back : String → String} (inverse : Function.LeftInverse back names) :
    Function.LeftInverse (rename back) (rename names) := by
  intro a
  rw [rename,instantiate_rename]
  exact instantiate_of_not_mentions fun name _ => congrArg Atom.var (inverse name)

variable (injective : Function.Injective names)
include injective

theorem rename_injective : Function.Injective (rename names) := by
  obtain ⟨back,inverse⟩ := injective.hasLeftInverse
  exact (rename_leftInverse inverse).injective

theorem mentions_rename (name : String) (a : Atom) :
    (a.rename names).mentions (names name) = a.mentions name := by
  rw [Bool.eq_iff_iff,rename,mentions_instantiate]
  constructor
  · rintro ⟨other,inside,same⟩
    rw [mentions_var] at same
    exact injective same ▸ inside
  · exact fun inside => ⟨name,inside,(mentions_var _ _).mpr rfl⟩

theorem rename_eq_var_iff (name : String) (a : Atom) :
    a.rename names = .var (names name) ↔ a = .var name :=
  (rename_injective injective).eq_iff (b := .var name)

theorem noteName_map (noted : List String) (name : String) :
    noteName (noted.map names) (names name) = (noteName noted name).map names := by
  have same : (noted.map names).contains (names name) = noted.contains name := by
    rw [Bool.eq_iff_iff,List.contains_iff_mem,List.contains_iff_mem,List.mem_map_of_injective injective]
  rw [noteName,noteName,same]
  split
  · rfl
  · rw [List.map_append,List.map_singleton]

theorem variableNames_rename (a : Atom) :
    (a.rename names).variableNames = a.variableNames.map names := by
  rw [variableNames,variableNames,occurrences_rename,List.foldl_map,← List.map_nil]
  exact List.foldl_hom (List.map names) fun noted name => noteName_map injective noted name

end Atom

namespace Substitution
open Atom

def rename (names : String → String) (s : Substitution) : Substitution :=
  ⟨s.bindings.map fun binding => (names binding.1,binding.2.rename names)⟩

variable {names : String → String}

@[simp] theorem rename_empty : (∅ : Substitution).rename names = ∅ := rfl

theorem rename_leftInverse {back : String → String} (inverse : Function.LeftInverse back names) :
    Function.LeftInverse (rename back) (rename names) := by
  intro s
  have bound (binding : String × Atom) :
      (back (names binding.1),(binding.2.rename names).rename back) = binding :=
    Prod.ext (inverse binding.1) (Atom.rename_leftInverse inverse binding.2)
  simp only [rename,List.map_map,Function.comp_def,bound,List.map_id']

theorem rename_mapValues {change changeToo : Atom → Atom}
    (same : ∀ a, changeToo (a.rename names) = (change a).rename names) (s : Substitution) :
    (s.rename names).mapValues changeToo = (s.mapValues change).rename names := by
  simp [rename,mapValues,Function.comp_def,same]

variable (injective : Function.Injective names)
include injective

theorem find?_rename (s : Substitution) (name : String) :
    (s.rename names).find? (names name) = (s.find? name).map (Atom.rename names) := by
  obtain ⟨bindings⟩ := s
  induction bindings with
  | nil => rfl
  | cons binding rest ih =>
    obtain ⟨other,value⟩ := binding
    simp only [rename,find?,List.map_cons,List.lookup_cons,injective.beq_eq] at ih ⊢
    split
    · rfl
    · exact ih

theorem contains_rename (s : Substitution) (name : String) :
    (s.rename names).contains (names name) = s.contains name := by
  rw [contains,contains,find?_rename injective,Option.isSome_map]

theorem value_rename (s : Substitution) (name : String) :
    (s.rename names).value (names name) = (s.value name).rename names := by
  rw [Substitution.value,Substitution.value,find?_rename injective]
  cases s.find? name <;> rfl

theorem apply_rename (s : Substitution) (a : Atom) :
    (s.rename names).apply (a.rename names) = (s.apply a).rename names := by
  rw [apply,apply,instantiate_rename,Atom.rename,instantiate_instantiate]
  exact instantiate_congr fun name _ => value_rename injective s name

theorem bind?_rename (s : Substitution) (name : String) (value : Atom) :
    (s.rename names).bind? (names name) (value.rename names) =
      (s.bind? name value).map (rename names) := by
  rw [bind?,bind?,find?_rename injective,apply_rename injective]
  cases s.find? name with
  | some existing =>
    simp only [Option.map_some,(rename_injective injective).eq_iff]
    split <;> rfl
  | none =>
    simp only [Option.map_none,rename_eq_var_iff injective,mentions_rename injective]
    have replaced : (s.rename names).mapValues
        (single (names name) ((s.apply value).rename names)).apply =
          (s.mapValues (single name (s.apply value)).apply).rename names :=
      rename_mapValues (apply_rename injective (single name (s.apply value))) s
    split
    · rfl
    · split
      · rfl
      · rw [replaced]
        simp [rename]

theorem compose_rename (s t : Substitution) :
    (s.rename names).compose (t.rename names) = (s.compose t).rename names := by
  have absent (name : String) := contains_rename injective s name
  rw [compose,compose,rename_mapValues (apply_rename injective t)]
  simp only [rename,List.filter_map,List.map_append,Function.comp_def,ne_eq,
    rename_eq_var_iff injective] at absent ⊢
  simp only [absent]

theorem restrict_rename (s : Substitution) (kept : List String) :
    (s.rename names).restrict (kept.map names) = (s.restrict kept).rename names := by
  have left (name : String) : (kept.map names).contains (names name) = kept.contains name := by
    rw [Bool.eq_iff_iff,List.contains_iff_mem,List.contains_iff_mem,List.mem_map_of_injective injective]
  simp only [rename,restrict,List.filter_map,Function.comp_def,left]

theorem resolve_rename (s : Substitution) (a : Atom) :
    (s.rename names).resolve (a.rename names) = (s.resolve a).rename names := by
  cases a with
  | sym symbol => rfl
  | var name => exact value_rename injective s name
  | expr children =>
    rw [rename_expr]
    exact (rename_expr children).symm

theorem solve?_rename (s : Substitution) (name : String) (term : Atom) :
    (s.rename names).solve? (names name) (term.rename names) =
      (s.solve? name term).map (rename names) := by
  rw [solve?,solve?,apply_rename injective,mentions_rename injective]
  split
  · rfl
  · exact bind?_rename injective s name _

end Substitution

/-! ### Unification -/

open Atom Substitution

def Answers.rename (names : String → String) (answers : Answers) : Answers :=
  answers.map fun answer => (answer.1.rename names,answer.2.rename names)

section
variable {names : String → String}

theorem Answers.rename_leftInverse {back : String → String}
    (inverse : Function.LeftInverse back names) :
    Function.LeftInverse (Answers.rename back) (Answers.rename names) := by
  intro answers
  have each (answer : Atom × Substitution) :
      ((answer.1.rename names).rename back,(answer.2.rename names).rename back) = answer :=
    Prod.ext (Atom.rename_leftInverse inverse answer.1)
      (Substitution.rename_leftInverse inverse answer.2)
  simp only [Answers.rename,List.map_map,Function.comp_def,each,List.map_id']

theorem unifyPairs_rename
    {unifyPair : Atom → Atom → Substitution → Option (Option Substitution)}
    (each : ∀ a b s, unifyPair (a.rename names) (b.rename names) (s.rename names) =
      (unifyPair a b s).map (Option.map (Substitution.rename names)))
    (as bs : List Atom) (s : Substitution) :
    unifyPairs unifyPair (as.map (Atom.rename names)) (bs.map (Atom.rename names)) (s.rename names) =
      (unifyPairs unifyPair as bs s).map (Option.map (Substitution.rename names)) := by
  induction as generalizing bs s with
  | nil => cases bs <;> rfl
  | cons a as ih =>
    cases bs with
    | nil => rfl
    | cons b bs =>
      rw [List.map_cons,List.map_cons,unifyPairs,unifyPairs,each]
      rcases unifyPair a b s with _ | _ | extended
      · rfl
      · rfl
      · exact ih bs extended

variable (injective : Function.Injective names)
include injective

theorem unifyWithin_rename (depth : Nat) (a b : Atom) (s : Substitution) :
    unifyWithin depth (a.rename names) (b.rename names) (s.rename names) =
      (unifyWithin depth a b s).map (Option.map (Substitution.rename names)) := by
  induction depth generalizing a b s with
  | zero => rfl
  | succ depth ih =>
    have bound (x : String) (b : Atom) :
        (if b.rename names = .var (names x) then some (s.rename names)
          else (s.rename names).solve? (names x) (b.rename names)) =
        (if b = .var x then some s else s.solve? x b).map (Substitution.rename names) := by
      simp only [rename_eq_var_iff injective,solve?_rename injective]
      split <;> rfl
    rw [unifyWithin,unifyWithin,resolve_rename injective,resolve_rename injective]
    generalize s.resolve a = left
    generalize s.resolve b = right
    cases left with
    | var x => exact congrArg some (bound x right)
    | sym p =>
      cases right with
      | var y => exact congrArg some (solve?_rename injective s y (.sym p))
      | sym q =>
        simp only [rename_sym]
        split <;> rfl
      | expr bs => simp only [rename_sym,rename_expr,Option.map_some,Option.map_none]
    | expr as =>
      cases right with
      | var y => exact congrArg some (solve?_rename injective s y (.expr as))
      | sym q => simp only [rename_sym,rename_expr,Option.map_some,Option.map_none]
      | expr bs =>
        simp only [rename_expr,List.length_map]
        split
        · exact unifyPairs_rename ih as bs s
        · rfl

theorem unify_rename (a b : Atom) :
    unify (a.rename names) (b.rename names) = (unify a b).map (Substitution.rename names) := by
  have within := unifyWithin_rename injective (unificationDepth a b ∅) a b ∅
  rw [unify,unify,unifyWith,unifyWith,unificationDepth,size_rename,size_rename]
  rw [rename_empty] at within
  change (unifyWithin (unificationDepth a b ∅) _ _ _).join = _
  rw [within]
  cases unifyWithin (unificationDepth a b ∅) a b ∅ <;> rfl

theorem unifyAll_rename (pattern : Atom) (atoms : List Atom) :
    unifyAll (pattern.rename names) (atoms.map (Atom.rename names)) =
      (unifyAll pattern atoms).rename names := by
  simp [unifyAll,Answers.rename,List.filterMap_map,List.map_filterMap,Function.comp_def,
    unify_rename injective]

end
end AtomLogic
