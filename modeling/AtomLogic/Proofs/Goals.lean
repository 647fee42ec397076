import AtomLogic.Proofs.Premises

/-! The goals that an atom leads to. A connective evaluates its operands. An operand that is a
variable, or an expression headed by one, is a goal that a binding supplies; without such operands
instantiation leaves alone which goals there are and how deep they nest. -/

namespace AtomLogic

/-- The operation evaluates its arguments. -/
def Standard.isConnective : Standard → Bool
  | conjunction => true
  | disjunction => true
  | negation => true
  | _ => false

namespace Atom

/-- Put together by some of the connectives from atoms of some kind. -/
inductive BuiltFrom (basic : Atom → Prop) (connectives : List Standard) : Atom → Prop where
  | basic {a : Atom} : basic a → BuiltFrom basic connectives a
  | connective {standard : Standard} {goals : List Atom} : standard ∈ connectives →
      (∀ goal ∈ goals, BuiltFrom basic connectives goal) →
        BuiltFrom basic connectives (.expr (.sym standard.name :: goals))

/-- No instance has another head. -/
def rigid : Atom → Bool
  | .var _ => false
  | .expr (.var _ :: _) => false
  | _ => true

/-- The arguments, if one of the chosen operations answers the atom. -/
def argumentsOf (chosen : Standard → Bool) (a : Atom) : List Atom :=
  if (a.head?.bind Standard.ofName?).any chosen then a.arguments else []

/-- The goals that evaluating the atom leads to at once. -/
def operands (a : Atom) : List Atom := a.argumentsOf Standard.isConnective

/-- The atoms that evaluating the atom stores at once. -/
def asserted (a : Atom) : List Atom := a.argumentsOf (· == .assertion)

/-- Connectives nest less than so deep, and none of their operands is supplied by a binding. Where
rules are chained, neither is any in the body of a rule that is stored on the way. -/
def settled (chaining : Chaining) : Nat → Atom → Bool
  | 0, _ => false
  | depth+1, a =>
    a.operands.all (fun goal => goal.rigid && settled chaining depth goal) &&
      (chaining == .disabled || a.asserted.all fun b => b.rigid &&
        (Rule.ofAtom? b).all fun rule => rule.body.rigid && settled chaining depth rule.body)

/-- If the atom is a rule then no goal in its body is supplied by a binding, nor the body itself. -/
def orderly (depth : Nat) (a : Atom) : Bool :=
  (Rule.ofAtom? a).all fun rule => rule.body.rigid && rule.body.settled .enabled depth

variable {chaining : Chaining} {depth : Nat} {a : Atom}

theorem settled_succ : a.settled chaining (depth + 1) = true ↔
    (∀ goal ∈ a.operands, goal.rigid = true ∧ goal.settled chaining depth = true) ∧
      (chaining = .enabled → ∀ b ∈ a.asserted, b.rigid = true ∧
        ∀ rule, Rule.ofAtom? b = some rule →
          rule.body.rigid = true ∧ rule.body.settled chaining depth = true) := by
  have strict : chaining = .disabled ↔ ¬chaining = .enabled := by cases chaining <;> simp
  simp only [settled,Bool.and_eq_true,List.all_eq_true,Bool.or_eq_true,beq_iff_eq,Option.all_eq_true,
    strict,Decidable.imp_iff_not_or]

theorem orderly_iff : a.orderly depth = true ↔ ∀ rule, Rule.ofAtom? a = some rule →
    rule.body.rigid = true ∧ rule.body.settled .enabled depth = true := by
  simp only [orderly,Option.all_eq_true,Bool.and_eq_true]

theorem settled_mono {more : Nat} (settled : a.settled chaining depth = true) (le : depth ≤ more) :
    a.settled chaining more = true := by
  induction depth generalizing a more with
  | zero => cases settled
  | succ depth ih =>
    obtain ⟨more,rfl⟩ : ∃ n, more = n + 1 := ⟨more - 1,by omega⟩
    rw [settled_succ] at settled ⊢
    have le : depth ≤ more := Nat.le_of_succ_le_succ le
    refine ⟨fun goal asked => ?_,fun strict b stored => ?_⟩
    · obtain ⟨rigid,settled⟩ := settled.1 goal asked
      exact ⟨rigid,ih settled le⟩
    · obtain ⟨rigid,rules⟩ := settled.2 strict b stored
      refine ⟨rigid,fun rule isRule => ?_⟩
      obtain ⟨rigid,settled⟩ := rules rule isRule
      exact ⟨rigid,ih settled le⟩

/-- What a symbol heads nests at least once, so a bound on how deep it nests is a successor. -/
theorem exists_depth_of_head? {name : String} (headed : a.head? = some name)
    (enough : a.depth ≤ depth) : ∃ less, depth = less + 1 := by
  obtain ⟨arguments,rfl⟩ := eq_of_head? headed
  exact Nat.exists_eq_add_of_le' (Nat.le_of_add_left_le enough)

theorem depth_le_of_operand {first goal : Atom} {goals : List Atom} (asked : goal ∈ goals)
    (enough : (expr (first :: goals)).depth ≤ depth + 1) : goal.depth ≤ depth :=
  Nat.le_of_lt_succ ((depth_lt_of_child (List.mem_cons_of_mem first asked)).trans_le enough)

theorem depth_lt_of_argument {b : Atom} (member : b ∈ a.arguments) : b.depth < a.depth := by
  unfold arguments at member
  split at member
  · exact depth_lt_of_child (List.mem_cons_of_mem _ member)
  · cases member

theorem mem_arguments {chosen : Standard → Bool} {b : Atom} (member : b ∈ a.argumentsOf chosen) :
    b ∈ a.arguments := by
  rw [argumentsOf] at member
  split at member
  · exact member
  · cases member

theorem depth_body_lt {rule : Rule} (isRule : Rule.ofAtom? a = some rule) :
    rule.body.depth < a.depth := by
  rw [(Rule.ofAtom?_eq_some_iff a rule).mp isRule]
  exact depth_lt_of_child (List.mem_cons_of_mem _ List.mem_cons_self)

/-- Connectives nest no deeper than expressions do. -/
theorem settled_depth (settled : a.settled chaining depth = true) :
    a.settled chaining (a.depth + 1) = true := by
  induction depth generalizing a with
  | zero => cases settled
  | succ depth ih =>
    rw [settled_succ] at settled ⊢
    refine ⟨fun goal asked => ?_,fun strict b stored => ?_⟩
    · obtain ⟨rigid,settled⟩ := settled.1 goal asked
      have below := depth_lt_of_argument (mem_arguments asked)
      exact ⟨rigid,settled_mono (ih settled) below⟩
    · obtain ⟨rigid,rules⟩ := settled.2 strict b stored
      refine ⟨rigid,fun rule isRule => ?_⟩
      obtain ⟨rigid,settled⟩ := rules rule isRule
      have below := depth_lt_of_argument (mem_arguments stored)
      exact ⟨rigid,settled_mono (ih settled) ((depth_body_lt isRule).trans below)⟩

/-! ### Instances -/

section Instances

variable (rigid : a.rigid = true) (values : String → Atom)
include rigid

theorem rigid_instantiate :
    (a.instantiate values).rigid = true ∧ (a.instantiate values).head? = a.head? := by
  cases a with
  | sym name => exact ⟨rfl,rfl⟩
  | var name => cases rigid
  | expr children =>
    rw [instantiate_expr]
    match children with
    | [] => exact ⟨rfl,rfl⟩
    | .sym _ :: _ => exact ⟨rfl,rfl⟩
    | .var _ :: _ => cases rigid
    | .expr _ :: _ =>
      rw [List.map_cons,instantiate_expr]
      exact ⟨rfl,rfl⟩

theorem argumentsOf_instantiate (chosen : Standard → Bool) :
    (a.instantiate values).argumentsOf chosen =
      (a.argumentsOf chosen).map (instantiate values) := by
  rw [argumentsOf,argumentsOf,(rigid_instantiate rigid values).2]
  split
  · next answered =>
    cases headed : a.head? with
    | none =>
      rw [headed] at answered
      cases answered
    | some name => exact arguments_instantiate headed values
  · rfl

theorem ofAtom?_of_instantiate {rule : Rule}
    (isRule : Rule.ofAtom? (a.instantiate values) = some rule) :
    ∃ original, Rule.ofAtom? a = some original ∧ rule.body = original.body.instantiate values := by
  rw [Rule.ofAtom?_eq_some_iff,Rule.toAtom] at isRule
  cases a with
  | sym name => cases isRule
  | var name => cases rigid
  | expr children =>
    rw [instantiate_expr] at isRule
    obtain ⟨first,others,rfl,isSymbol,parts⟩ := List.map_eq_cons_iff.mp (Atom.expr.inj isRule)
    obtain ⟨body,last,rfl,same,parts⟩ := List.map_eq_cons_iff.mp parts
    obtain ⟨head,rfl,_⟩ := List.map_eq_singleton_iff.mp parts
    cases first with
    | sym name =>
      obtain rfl : name = Rule.symbol := Atom.sym.inj isSymbol
      exact ⟨⟨body,head⟩,(Rule.ofAtom?_eq_some_iff _ _).mpr rfl,same.symm⟩
    | var name => cases rigid
    | expr _ =>
      rw [instantiate_expr] at isSymbol
      cases isSymbol

theorem settled_instantiate (settled : a.settled chaining depth = true) :
    (a.instantiate values).settled chaining depth = true := by
  induction depth generalizing a with
  | zero => cases settled
  | succ depth ih =>
    rw [settled_succ] at settled ⊢
    rw [operands,asserted,argumentsOf_instantiate rigid,argumentsOf_instantiate rigid,
      List.forall_mem_map]
    refine ⟨fun goal asked => ?_,fun strict => List.forall_mem_map.mpr fun b stored => ?_⟩
    · obtain ⟨rigid,settled⟩ := settled.1 goal asked
      exact ⟨(rigid_instantiate rigid values).1,ih rigid settled⟩
    · obtain ⟨rigid,rules⟩ := settled.2 strict b stored
      refine ⟨(rigid_instantiate rigid values).1,fun rule isRule => ?_⟩
      obtain ⟨original,isOriginal,same⟩ := ofAtom?_of_instantiate rigid values isRule
      obtain ⟨rigid,settled⟩ := rules original isOriginal
      rw [same]
      exact ⟨(rigid_instantiate rigid values).1,ih rigid settled⟩

end Instances
end Atom

end AtomLogic
