import AtomLogic.Proofs.Freshness

/-! The numbers in the names of copied variables. A name consists of parts with semicolons between
them, and each part behind the first that writes a number is what a copy has added. When the numbers
change, each name keeps its other parts, so that names are told apart as long as the numbers are. -/

namespace AtomLogic.Rule

def parts (name : String) : List (List Char) := name.toList.splitOn ';'

/-- The number that the characters write, if this is the usual way to write it. -/
def number? (part : List Char) : Option Nat :=
  let number := Nat.ofDigitChars 10 part 0
  if (toString number).toList = part then some number else none

/-- The numbers behind the semicolons of a name. -/
def numbers (name : String) : List Nat := (parts name).tail.filterMap number?

def renumberPart (change : Nat → Nat) (part : List Char) : List Char :=
  match number? part with
  | some number => (toString (change number)).toList
  | none => part

def mapTail {α : Type} (change : α → α) : List α → List α
  | [] => []
  | first :: others => first :: others.map change

/-- The name with other numbers behind its semicolons. -/
def renumber (change : Nat → Nat) (name : String) : String :=
  String.ofList ([';'].intercalate (mapTail (renumberPart change) (parts name)))

/-! ### Parts -/

theorem mapTail_eq_self {α : Type} {change : α → α} {as : List α}
    (fixed : ∀ a ∈ as.tail, change a = a) : mapTail change as = as := by
  cases as with
  | nil => rfl
  | cons first others =>
    exact congrArg (first :: ·) ((List.map_congr_left fixed).trans (List.map_id' others))

theorem mapTail_mapTail {α : Type} (change changeToo : α → α) (as : List α) :
    mapTail changeToo (mapTail change as) = mapTail (changeToo ∘ change) as := by
  cases as with
  | nil => rfl
  | cons first others => rw [mapTail,mapTail,mapTail,List.map_map]

theorem mapTail_concat {α : Type} (change : α → α) {as : List α} (some : as ≠ []) (last : α) :
    mapTail change (as ++ [last]) = mapTail change as ++ [change last] := by
  cases as with
  | nil => exact absurd rfl some
  | cons first others => simp [mapTail]

theorem not_mem_of_mem_splitOn {letters part : List Char} {c : Char}
    (member : part ∈ letters.splitOn c) : c ∉ part := by
  induction letters generalizing part with
  | nil =>
    rw [List.splitOn_nil,List.mem_singleton] at member
    rw [member]
    exact List.not_mem_nil
  | cons first letters ih =>
    rw [List.splitOn_cons_eq_if_modifyHead] at member
    split at member
    · rcases List.mem_cons.mp member with rfl | later
      · exact List.not_mem_nil
      · exact ih later
    · next differ =>
      cases split : letters.splitOn c with
      | nil => exact absurd split (List.splitOn_ne_nil c letters)
      | cons front others =>
        rw [split] at member ih
        rcases List.mem_cons.mp member with rfl | later
        · rw [List.mem_cons,not_or]
          exact ⟨fun same => differ (beq_iff_eq.mpr same.symm),ih List.mem_cons_self⟩
        · exact ih (List.mem_cons_of_mem _ later)

theorem parts_ne_nil (name : String) : parts name ≠ [] := List.splitOn_ne_nil ';' name.toList

theorem parts_injective : Function.Injective parts := by
  intro name other same
  have joined (name : String) : [';'].intercalate (parts name) = name.toList :=
    List.intercalate_splitOn ';'
  rw [← String.toList_inj,← joined,same,joined]

theorem parts_copyName (number : Nat) (name : String) :
    parts (copyName number name) = parts name ++ [(toString number).toList] := by
  have letters : (copyName number name).toList = name.toList ++ ';' :: (toString number).toList := by
    simp [copyName]
  rw [parts,letters,List.splitOn_append_cons_self,
    List.splitOn_eq_singleton (semicolon_not_mem_toString number),parts]

/-! ### Numbers -/

theorem number?_eq_some_iff {part : List Char} {number : Nat} :
    number? part = some number ↔ part = (toString number).toList := by
  have read : Nat.ofDigitChars 10 (toString number).toList 0 = number := by
    rw [Nat.toString_eq_repr,Nat.toList_repr]
    simp
  rw [number?]
  constructor
  · intro found
    split at found
    · next written =>
      cases found
      exact written.symm
    · cases found
  · rintro rfl
    simp only [read,if_true]

theorem renumberPart_toString (change : Nat → Nat) (number : Nat) :
    renumberPart change (toString number).toList = (toString (change number)).toList := by
  rw [renumberPart,number?_eq_some_iff.mpr rfl]

theorem renumberPart_cases (part : List Char) :
    (∃ number : Nat, number? part = some number ∧ part = (toString number).toList) ∨
      ∀ change, renumberPart change part = part := by
  cases found : number? part with
  | some number => exact .inl ⟨number,rfl,number?_eq_some_iff.mp found⟩
  | none =>
    refine .inr fun change => ?_
    rw [renumberPart,found]

theorem semicolon_not_mem_renumberPart {change : Nat → Nat} {part : List Char}
    (absent : ';' ∉ part) : ';' ∉ renumberPart change part := by
  rcases renumberPart_cases part with ⟨number,_,rfl⟩ | fixed
  · rw [renumberPart_toString]
    exact semicolon_not_mem_toString _
  · rw [fixed]
    exact absent

/-! ### Names -/

variable {change : Nat → Nat}

theorem parts_renumber (name : String) :
    parts (renumber change name) = mapTail (renumberPart change) (parts name) := by
  have plain : ∀ part ∈ parts name, ';' ∉ part := fun _ => not_mem_of_mem_splitOn
  rw [parts,renumber,String.toList_ofList]
  cases split : parts name with
  | nil => exact absurd split (parts_ne_nil name)
  | cons first others =>
    rw [split,List.forall_mem_cons] at plain
    refine List.splitOn_intercalate ';' ?_ (List.cons_ne_nil _ _)
    refine List.forall_mem_cons.mpr ⟨plain.1,List.forall_mem_map.mpr fun part member => ?_⟩
    exact semicolon_not_mem_renumberPart (plain.2 part member)

theorem renumber_copyName (number : Nat) (name : String) :
    renumber change (copyName number name) = copyName (change number) (renumber change name) := by
  apply parts_injective
  rw [parts_renumber,parts_copyName,parts_copyName,parts_renumber,mapTail_concat _ (parts_ne_nil name),
    renumberPart_toString]

theorem renumber_of_fixed {name : String} (fixed : ∀ number ∈ numbers name, change number = number) :
    renumber change name = name := by
  apply parts_injective
  rw [parts_renumber]
  refine mapTail_eq_self fun part member => ?_
  rcases renumberPart_cases part with ⟨number,found,written⟩ | unchanged
  · have same := fixed number (List.mem_filterMap.mpr ⟨part,member,found⟩)
    rw [written,renumberPart_toString,same]
  · exact unchanged change

theorem renumber_leftInverse {back : Nat → Nat} (inverse : Function.LeftInverse back change) :
    Function.LeftInverse (renumber back) (renumber change) := by
  intro name
  apply parts_injective
  rw [parts_renumber,parts_renumber,mapTail_mapTail]
  refine mapTail_eq_self fun part _ => ?_
  rcases renumberPart_cases part with ⟨number,_,rfl⟩ | unchanged
  · rw [Function.comp_apply,renumberPart_toString,renumberPart_toString,inverse]
  · rw [Function.comp_apply,unchanged,unchanged]

/-- The numbers from the first on are counted from the second on. -/
def shift (first second number : Nat) : Nat :=
  if first ≤ number then second + (number - first) else number

theorem shift_leftInverse {first second : Nat} (le : first ≤ second) :
    Function.LeftInverse (shift second first) (shift first second) := by
  intro number
  rw [shift,shift]
  split <;> split <;> omega

/-- The name with its numbers from the first on counted from the second on. -/
def recount (first second : Nat) : String → String := renumber (shift first second)

theorem recount_leftInverse {first second : Nat} (le : first ≤ second) :
    Function.LeftInverse (recount second first) (recount first second) :=
  renumber_leftInverse (shift_leftInverse le)

theorem recount_of_lt {first second : Nat} {name : String}
    (below : ∀ number ∈ numbers name, number < first) : recount first second name = name :=
  renumber_of_fixed fun number inside => if_neg (Nat.not_le_of_lt (below number inside))

example : recount 3 10 "4;2;4;05;5" = "4;2;11;05;12" := by decide +kernel

end AtomLogic.Rule
