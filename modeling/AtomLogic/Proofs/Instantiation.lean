import AtomLogic.Atom
import Mathlib.Data.Finset.Card
import Mathlib.Data.Finset.Dedup

/-! Instantiation of atoms: how it composes, which variables it leaves behind, and how the
expressions inside an instance come about. The depth of an atom never exceeds the number
of different expressions inside it. -/

namespace AtomLogic.Atom

@[simp] theorem instantiate_sym (values : String → Atom) (name : String) :
    instantiate values (.sym name) = .sym name := rfl

@[simp] theorem instantiate_var (values : String → Atom) (name : String) :
    instantiate values (.var name) = values name := rfl

@[simp] theorem instantiate_expr (values : String → Atom) (children : List Atom) :
    instantiate values (.expr children) = .expr (children.map (instantiate values)) := by
  rw [instantiate,instantiateAll_eq_map]

@[simp] theorem mentions_sym (name symbol : String) : (sym symbol).mentions name = false := rfl

@[simp] theorem mentions_var (name other : String) :
    (var other).mentions name = true ↔ other = name := by
  simp [mentions]

@[simp] theorem mentions_expr (name : String) (children : List Atom) :
    (expr children).mentions name = true ↔ ∃ child ∈ children, child.mentions name = true := by
  rw [mentions,anyMentions_eq_any,List.any_eq_true]

theorem mem_occurrences (name : String) (a : Atom) :
    name ∈ a.occurrences ↔ a.mentions name = true := by
  induction a with
  | sym symbol => simp [occurrences]
  | var other => rw [occurrences,List.mem_singleton,mentions_var,eq_comm]
  | expr children ih =>
    rw [occurrences,occurrencesAll_eq_flatMap,List.mem_flatMap,mentions_expr]
    constructor
    · intro given
      obtain ⟨child,member,inside⟩ := given
      exact ⟨child,member,(ih child member).mp inside⟩
    · intro given
      obtain ⟨child,member,inside⟩ := given
      exact ⟨child,member,(ih child member).mpr inside⟩

theorem instantiate_congr {first second : String → Atom} {a : Atom}
    (same : ∀ name, a.mentions name = true → first name = second name) :
    a.instantiate first = a.instantiate second := by
  induction a with
  | sym symbol => rfl
  | var name => exact same name (by simp)
  | expr children ih =>
    rw [instantiate_expr,instantiate_expr]
    congr 1
    apply List.map_congr_left
    intro child member
    exact ih child member fun name inside => same name ((mentions_expr _ _).mpr ⟨child,member,inside⟩)

/-- An instance is known by the values of the variables that the atom mentions. -/
theorem instantiate_eq_iff {first second : String → Atom} {a : Atom} :
    a.instantiate first = a.instantiate second ↔
      ∀ name, a.mentions name = true → first name = second name := by
  refine ⟨fun same => ?_,instantiate_congr⟩
  induction a with
  | sym symbol => exact nofun
  | var other =>
    intro name inside
    rw [mentions_var] at inside
    exact inside ▸ same
  | expr children ih =>
    intro name inside
    obtain ⟨child,member,inside⟩ := (mentions_expr _ _).mp inside
    rw [instantiate_expr,instantiate_expr] at same
    exact ih child member (List.map_inj_left.mp (Atom.expr.inj same) child member) name inside

@[simp] theorem instantiate_self (a : Atom) : a.instantiate .var = a := by
  induction a with
  | sym symbol => rfl
  | var name => rfl
  | expr children ih =>
    rw [instantiate_expr,List.map_congr_left ih,List.map_id']

theorem instantiate_of_not_mentions {values : String → Atom} {a : Atom}
    (kept : ∀ name, a.mentions name = true → values name = .var name) :
    a.instantiate values = a := by
  rw [instantiate_congr kept,instantiate_self]

theorem instantiate_instantiate (first second : String → Atom) (a : Atom) :
    (a.instantiate first).instantiate second =
      a.instantiate (fun name => (first name).instantiate second) := by
  induction a with
  | sym symbol => rfl
  | var name => rfl
  | expr children ih =>
    simp only [instantiate_expr,List.map_map]
    congr 1
    exact List.map_congr_left ih

theorem mentions_instantiate (values : String → Atom) (name : String) (a : Atom) :
    (a.instantiate values).mentions name = true ↔
      ∃ other, a.mentions other = true ∧ (values other).mentions name = true := by
  induction a with
  | sym symbol => simp
  | var other => simp
  | expr children ih =>
    rw [instantiate_expr,mentions_expr]
    constructor
    · intro given
      obtain ⟨image,member,inside⟩ := given
      obtain ⟨child,original,rfl⟩ := List.mem_map.mp member
      obtain ⟨other,first,second⟩ := (ih child original).mp inside
      exact ⟨other,(mentions_expr _ _).mpr ⟨child,original,first⟩,second⟩
    · intro given
      obtain ⟨other,first,second⟩ := given
      obtain ⟨child,original,first⟩ := (mentions_expr _ _).mp first
      exact ⟨child.instantiate values,List.mem_map_of_mem original,
        (ih child original).mpr ⟨other,first,second⟩⟩

theorem instantiate_rename (values : String → Atom) (names : String → String) (a : Atom) :
    (a.rename names).instantiate values = a.instantiate (values ∘ names) := by
  rw [rename,instantiate_instantiate]
  rfl

theorem eq_of_head? {a : Atom} {name : String} (headed : a.head? = some name) :
    ∃ arguments, a = .expr (.sym name :: arguments) := by
  unfold head? at headed
  split at headed
  · cases headed
    exact ⟨_,rfl⟩
  · cases headed

theorem head?_instantiate {a : Atom} {name : String} (headed : a.head? = some name)
    (values : String → Atom) : (a.instantiate values).head? = some name := by
  obtain ⟨arguments,rfl⟩ := eq_of_head? headed
  rw [instantiate_expr,List.map_cons,instantiate_sym,head?]

/-! ### Variables -/

theorem mem_noteName (names : List String) (name other : String) :
    other ∈ noteName names name ↔ other ∈ names ∨ other = name := by
  rw [noteName]
  split
  · next known =>
    rw [List.contains_iff_mem] at known
    exact ⟨.inl,fun either => either.elim id (· ▸ known)⟩
  · rw [List.mem_append,List.mem_singleton]

theorem mem_variableNames (name : String) (a : Atom) :
    name ∈ a.variableNames ↔ a.mentions name = true := by
  have noted : ∀ occurrences names : List String,
      name ∈ occurrences.foldl noteName names ↔ name ∈ names ∨ name ∈ occurrences := by
    intro occurrences
    induction occurrences with
    | nil => simp
    | cons other occurrences ih =>
      intro names
      rw [List.foldl_cons,ih,mem_noteName,List.mem_cons,or_assoc]
  rw [variableNames,noted,← mem_occurrences,or_iff_right List.not_mem_nil]

theorem occurrences_rename (names : String → String) (a : Atom) :
    (a.rename names).occurrences = a.occurrences.map names := by
  rw [rename]
  induction a with
  | sym symbol => rfl
  | var name => rfl
  | expr children ih =>
    rw [instantiate_expr,occurrences,occurrences,occurrencesAll_eq_flatMap,occurrencesAll_eq_flatMap,
      List.flatMap_map,List.map_flatMap,List.flatMap_congr ih]

theorem hasVariables_iff (a : Atom) :
    a.hasVariables = true ↔ ∃ name, a.mentions name = true := by
  induction a with
  | sym symbol => simp [hasVariables]
  | var name => simp [hasVariables]
  | expr children ih =>
    rw [hasVariables,anyHasVariables_eq_any,List.any_eq_true]
    constructor
    · intro given
      obtain ⟨child,member,inside⟩ := given
      obtain ⟨name,inside⟩ := (ih child member).mp inside
      exact ⟨name,(mentions_expr _ _).mpr ⟨child,member,inside⟩⟩
    · intro given
      obtain ⟨name,inside⟩ := given
      obtain ⟨child,member,inside⟩ := (mentions_expr _ _).mp inside
      exact ⟨child,member,(ih child member).mpr ⟨name,inside⟩⟩

theorem not_mentions_of_ground {a : Atom} (ground : a.hasVariables = false) (name : String) :
    a.mentions name = false := by
  by_contra inside
  rw [(hasVariables_iff a).mpr ⟨name,Bool.of_not_eq_false inside⟩] at ground
  cases ground

theorem instantiate_ground {a : Atom} (ground : a.hasVariables = false) (values : String → Atom) :
    a.instantiate values = a := by
  apply instantiate_of_not_mentions
  intro name inside
  rw [not_mentions_of_ground ground] at inside
  cases inside

theorem ground_instantiate (values : String → Atom) (a : Atom) :
    (a.instantiate values).hasVariables = false ↔
      ∀ name, a.mentions name = true → (values name).hasVariables = false := by
  simp only [← Bool.not_eq_true,hasVariables_iff,mentions_instantiate]
  constructor
  · intro none name inside given
    obtain ⟨other,within⟩ := given
    exact none ⟨other,name,inside,within⟩
  · intro each given
    obtain ⟨other,name,inside,within⟩ := given
    exact each name inside ⟨other,within⟩

/-! ### Sizes -/

theorem size_le_sizeAll {a : Atom} {as : List Atom} (member : a ∈ as) : a.size ≤ sizeAll as := by
  induction as with
  | nil => cases member
  | cons b as ih =>
    rw [sizeAll]
    cases member with
    | head => omega
    | tail _ later =>
      have := ih later
      omega

theorem size_lt_of_child {child : Atom} {children : List Atom} (member : child ∈ children) :
    child.size < (expr children).size := by
  have part := size_le_sizeAll member
  rw [size]
  omega

theorem size_value_le {values : String → Atom} {name : String} {a : Atom}
    (inside : a.mentions name = true) : (values name).size ≤ (a.instantiate values).size := by
  induction a with
  | sym symbol => simp at inside
  | var other =>
    obtain rfl := (mentions_var _ _).mp inside
    exact Nat.le_refl _
  | expr children ih =>
    obtain ⟨child,member,inside⟩ := (mentions_expr _ _).mp inside
    have below := ih child member inside
    have within : (child.instantiate values).size < ((expr children).instantiate values).size := by
      rw [instantiate_expr]
      exact size_lt_of_child (List.mem_map_of_mem member)
    omega

/-- The occurs check: nothing makes a variable equal to a larger atom that mentions it. -/
theorem value_ne_instantiate {values : String → Atom} {name : String} {a : Atom}
    (inside : a.mentions name = true) (larger : a ≠ .var name) :
    values name ≠ a.instantiate values := by
  intro equal
  cases a with
  | sym symbol => simp at inside
  | var other => exact larger (congrArg var ((mentions_var _ _).mp inside))
  | expr children =>
    obtain ⟨child,member,inside⟩ := (mentions_expr _ _).mp inside
    have below : (values name).size ≤ (child.instantiate values).size := size_value_le inside
    have within : (child.instantiate values).size < ((expr children).instantiate values).size := by
      rw [instantiate_expr]
      exact size_lt_of_child (List.mem_map_of_mem member)
    rw [equal] at below
    omega

/-! ### The expressions inside an atom -/

mutual
def expressions : Atom → List Atom
  | .sym _ => []
  | .var _ => []
  | .expr children => .expr children :: expressionsAll children

def expressionsAll : List Atom → List Atom
  | [] => []
  | a :: as => a.expressions ++ expressionsAll as
end

theorem expressionsAll_eq_flatMap (as : List Atom) :
    expressionsAll as = as.flatMap expressions := by
  induction as with
  | nil => rfl
  | cons a as ih => simp [expressionsAll,ih]

@[simp] theorem expressions_sym (name : String) : (sym name).expressions = [] := rfl

@[simp] theorem expressions_var (name : String) : (var name).expressions = [] := rfl

@[simp] theorem mem_expressions_expr (e : Atom) (children : List Atom) :
    e ∈ (expr children).expressions ↔
      e = expr children ∨ ∃ child ∈ children, e ∈ child.expressions := by
  rw [expressions,expressionsAll_eq_flatMap,List.mem_cons,List.mem_flatMap]

theorem mem_expressions_self (children : List Atom) :
    expr children ∈ (expr children).expressions := by simp

theorem size_le_of_mem_expressions {e a : Atom} (inside : e ∈ a.expressions) :
    e.size ≤ a.size := by
  induction a with
  | sym symbol => simp at inside
  | var name => simp at inside
  | expr children ih =>
    rcases (mem_expressions_expr _ _).mp inside with rfl | ⟨child,member,inside⟩
    · exact Nat.le_refl _
    · exact (ih child member inside).trans (size_lt_of_child member).le

theorem mentions_of_mem_expressions {e a : Atom} {name : String} (part : e ∈ a.expressions)
    (inside : e.mentions name = true) : a.mentions name = true := by
  induction a with
  | sym symbol => simp at part
  | var other => simp at part
  | expr children ih =>
    rcases (mem_expressions_expr _ _).mp part with rfl | ⟨child,member,part⟩
    · exact inside
    · exact (mentions_expr _ _).mpr ⟨child,member,ih child member part⟩

theorem length_expressionsAll_le {as : List Atom}
    (each : ∀ a ∈ as, a.expressions.length ≤ a.size) :
    (expressionsAll as).length ≤ sizeAll as := by
  induction as with
  | nil => simp [expressionsAll,sizeAll]
  | cons a as ih =>
    rw [expressionsAll,sizeAll,List.length_append]
    exact Nat.add_le_add (each a List.mem_cons_self)
      (ih fun b member => each b (List.mem_cons_of_mem a member))

theorem length_expressions_le (a : Atom) : a.expressions.length ≤ a.size := by
  induction a with
  | sym symbol => simp [size]
  | var name => simp [size]
  | expr children ih =>
    rw [expressions,List.length_cons,size]
    exact Nat.succ_le_succ (length_expressionsAll_le ih)

/-- An expression inside an instance is an instance of an expression, or lies inside the
value of a variable. -/
theorem mem_expressions_instantiate {values : String → Atom} {e a : Atom}
    (inside : e ∈ (a.instantiate values).expressions) :
    (∃ u ∈ a.expressions, e = u.instantiate values) ∨
      ∃ name, a.mentions name = true ∧ e ∈ (values name).expressions := by
  induction a with
  | sym symbol => simp at inside
  | var name => exact .inr ⟨name,by simp,inside⟩
  | expr children ih =>
    rw [instantiate_expr,mem_expressions_expr] at inside
    rcases inside with rfl | ⟨image,member,inside⟩
    · exact .inl ⟨expr children,mem_expressions_self children,by simp⟩
    · obtain ⟨child,original,rfl⟩ := List.mem_map.mp member
      rcases ih child original inside with ⟨u,part,rfl⟩ | ⟨name,mentioned,inside⟩
      · exact .inl ⟨u,(mem_expressions_expr _ _).mpr (.inr ⟨child,original,part⟩),rfl⟩
      · exact .inr ⟨name,(mentions_expr _ _).mpr ⟨child,original,mentioned⟩,inside⟩

theorem depthAll_le_iff (as : List Atom) (bound : Nat) :
    depthAll as ≤ bound ↔ ∀ a ∈ as, a.depth ≤ bound := by
  induction as with
  | nil => simp [depthAll]
  | cons a as ih => simp [depthAll,ih]

theorem depth_lt_of_child {child : Atom} {children : List Atom} (member : child ∈ children) :
    child.depth < (expr children).depth := by
  rw [depth]
  exact Nat.lt_succ_of_le ((depthAll_le_iff children _).mp (Nat.le_refl _) child member)

theorem depth_le_card_expressions (a : Atom) : a.depth ≤ a.expressions.toFinset.card := by
  induction a with
  | sym symbol => simp [depth]
  | var name => simp [depth]
  | expr children ih =>
    have new : expr children ∉ (expressionsAll children).toFinset := by
      rw [List.mem_toFinset,expressionsAll_eq_flatMap,List.mem_flatMap]
      intro given
      obtain ⟨child,member,inside⟩ := given
      exact absurd (size_le_of_mem_expressions inside) (Nat.not_le.mpr (size_lt_of_child member))
    rw [depth,expressions,List.toFinset_cons,Finset.card_insert_of_notMem new,
      Nat.add_le_add_iff_right,depthAll_le_iff]
    intro child member
    refine (ih child member).trans (Finset.card_le_card ?_)
    intro e inside
    rw [List.mem_toFinset] at inside ⊢
    rw [expressionsAll_eq_flatMap,List.mem_flatMap]
    exact ⟨child,member,inside⟩

theorem depth_le_length {a : Atom} {pieces : List Atom}
    (inside : ∀ e ∈ a.expressions, e ∈ pieces) : a.depth ≤ pieces.length := by
  have subset : a.expressions.toFinset ⊆ pieces.toFinset := by
    intro e member
    exact List.mem_toFinset.mpr (inside e (List.mem_toFinset.mp member))
  calc a.depth ≤ a.expressions.toFinset.card := depth_le_card_expressions a
    _ ≤ pieces.toFinset.card := Finset.card_le_card subset
    _ ≤ pieces.length := List.toFinset_card_le pieces

end AtomLogic.Atom
