import AtomLogic.FactStore
import AtomLogic.Proofs.Trials

/-! Cancellation. Whether a store is cancelled is asked when an evaluation starts and when it ends, and a
cancelled store refuses every query at once. No call takes a cancellation back, unless an operation
does. -/

namespace AtomLogic

variable {α β : Type}

/-- If the store is cancelled, or not, as the flag says, then so it is after the computation. -/
def Steady (flag : Bool) (x : Eval α) : Prop :=
  ∀ world a later, x world = some (a,later) → world.cancelled = flag → later.cancelled = flag

/-- The operations are steady if what they evaluate is. -/
def Registry.Steady (flag : Bool) (registry : Registry) : Prop :=
  ∀ operation ∈ registry.operations, ∀ evaluate, (∀ goal, AtomLogic.Steady flag (evaluate goal)) →
    ∀ arguments, AtomLogic.Steady flag (operation.run evaluate arguments)

namespace Steady

variable {flag : Bool} {x : Eval α}

theorem pure (a : α) : Steady flag (pure a) := by
  intro world b later ran unmoved
  cases ran
  exact unmoved

theorem failure : Steady flag (failure : Eval α) := by
  intro world b later ran
  cases ran

theorem bind {f : α → Eval β} (first : Steady flag x) (next : ∀ a, Steady flag (f a)) :
    Steady flag (x >>= f) := by
  intro world b later ran unmoved
  obtain ⟨a,middle,ranFirst,ranNext⟩ := Eval.bind_eq_some_iff.mp ran
  exact next a middle b later ranNext (first world a middle ranFirst unmoved)

theorem space : Steady flag (getThe Space) := by
  intro world space later ran unmoved
  cases ran
  exact unmoved

theorem world : Steady flag (getThe World) := by
  intro world again later ran unmoved
  cases ran
  exact unmoved

theorem change (change : Space → α × Space) : Steady flag (modifyGetThe Space change) := by
  intro world a later ran unmoved
  cases ran
  exact unmoved

theorem respects : Respects (m := Eval) (n := Eval) fun _ x y => x = y ∧ Steady flag x where
  pure a := ⟨rfl,pure a⟩
  bind := by
    rintro α β x _ f g ⟨rfl,first⟩ next
    obtain rfl : f = g := funext fun a => (next a).1
    exact ⟨rfl,first.bind fun a => (next a).2⟩
  space := ⟨rfl,space⟩
  change update := ⟨rfl,change update⟩

theorem standard : Registry.standard.Steady flag := by
  intro operation member evaluate each arguments
  obtain ⟨standard,_,rfl⟩ := List.mem_map.mp member
  exact (respects.execute (fun goal => ⟨rfl,each goal⟩) standard arguments).2

section Evaluation

variable {evaluate : Atom → Eval Answers} (each : ∀ goal, Steady flag (evaluate goal))
include each

theorem inferFrom (query stored : Atom) : Steady flag (inferFrom evaluate query stored) := by
  rw [AtomLogic.inferFrom]
  cases Rule.ofAtom? stored with
  | none => exact pure []
  | some rule =>
    have number : Steady flag (modifyGetThe World fun world =>
        (world.tried,{ world with tried := world.tried + 1 }) : Eval Nat) := by
      intro world count later ran unmoved
      cases ran
      exact unmoved
    refine number.bind fun number => ?_
    dsimp only
    cases unify (rule.copy number).head query with
    | none => exact pure []
    | some s => exact (each _).bind fun answers => pure _

theorem consult (chaining : Chaining) (query : Atom) :
    Steady flag (consult evaluate chaining query) := by
  have tried : Steady flag (infer evaluate query) :=
    space.bind fun _ => (respects.gather (fun stored => ⟨rfl,inferFrom each query stored⟩) _).2
  cases chaining with
  | enabled => exact tried.bind fun inferred => space.bind fun space => pure _
  | disabled => exact (pure []).bind fun inferred => space.bind fun space => pure _

end Evaluation

theorem evaluateWithin {registry : Registry} (steady : registry.Steady flag) (depth : Nat)
    (chaining : Chaining) (query : Atom) :
    Steady flag (Interpreter.evaluateWithin registry depth chaining query) := by
  induction depth generalizing chaining query with
  | zero => exact failure
  | succ depth ih =>
    rw [Interpreter.evaluateWithin]
    cases found : query.head?.bind registry.find? with
    | none => exact (consult (ih .disabled) chaining query).bind fun answers => pure _
    | some operation =>
      obtain ⟨name,_,named⟩ := Option.bind_eq_some_iff.mp found
      have ran := steady operation (List.mem_of_find?_eq_some named) _ (ih chaining) query.arguments
      have dispatched : Steady flag (dispatch (Interpreter.evaluateWithin registry depth chaining)
          operation query) := ran.bind fun result => by cases result <;> exact pure _
      exact dispatched.bind fun answers => pure _

theorem addGround (atoms : List Atom) : Steady flag (Interpreter.addGround atoms) := by
  intro world added later ran unmoved
  obtain ⟨others,last,ranToo,unmovedToo,_⟩ :=
    Ensures.addGround (·.cancelled = flag) atoms (fun _ _ _ same => same) world unmoved
  rw [ran] at ranToo
  cases ranToo
  exact unmovedToo

variable {interpreter : Interpreter} (steady : interpreter.registry.Steady flag)
include steady

theorem answers (query : Atom) : Steady flag (interpreter.answers query) :=
  evaluateWithin steady interpreter.limit .enabled query

theorem evaluateCancellable (query : Atom) : Steady flag (interpreter.evaluateCancellable query) := by
  refine world.bind fun before => ?_
  split
  · exact pure _
  · have evaluated : Steady flag (interpreter.evaluate query) :=
      (answers steady query).bind fun found => pure _
    refine evaluated.bind fun found => world.bind fun after => ?_
    split <;> exact pure _

theorem applyRule (a : Atom) : Steady flag (interpreter.applyRule a) := by
  rw [Interpreter.applyRule]
  cases Rule.ofAtom? a with
  | none => exact pure _
  | some rule =>
    exact (change (Space.add a)).bind fun _ =>
      (evaluateWithin steady interpreter.limit .disabled rule.body).bind fun answers =>
        (addGround _).bind fun added => pure _

end Steady

/-! ### Refused queries -/

namespace FactStore

variable (store : FactStore)

theorem answerText_of_cancelled {world : World} (cancelled : world.cancelled = true) (query : Atom) :
    store.answerText query world = some (.error (.refused .cancelled),world) := by
  have refused : store.interpreter.evaluateCancellable query world =
      some (.error .cancelled,world) := by
    change (if world.cancelled = true then _ else _ : Eval _) world = _
    rw [if_pos cancelled]
    rfl
  exact Eval.bind_eq_some_iff.mpr ⟨_,world,refused,rfl⟩

theorem cancelled_of_answerText {query : Atom} {world later : World} {e : FactStoreError}
    (refused : store.answerText query world = some (.error e,later)) : later.cancelled = true := by
  obtain ⟨found,middle,evaluated,ended⟩ := Eval.bind_eq_some_iff.mp refused
  cases found with
  | ok found => cases ended
  | error e =>
    cases ended
    obtain ⟨_,_,asked,evaluated⟩ := Eval.bind_eq_some_iff.mp evaluated
    cases asked
    split at evaluated
    · next before =>
      cases evaluated
      exact before
    · obtain ⟨found,_,_,evaluated⟩ := Eval.bind_eq_some_iff.mp evaluated
      obtain ⟨_,_,asked,evaluated⟩ := Eval.bind_eq_some_iff.mp evaluated
      cases asked
      split at evaluated
      · next after =>
        cases evaluated
        exact after
      · cases evaluated

theorem answerTexts_of_cancelled {world : World} (cancelled : world.cancelled = true)
    (query : Atom) (queries : List Atom) :
    store.answerTexts (query :: queries) world = some (.error (.refused .cancelled),world) := by
  rw [answerTexts]
  exact Eval.bind_eq_some_iff.mpr ⟨_,world,store.answerText_of_cancelled cancelled query,rfl⟩

/-! ### Requests -/

section

variable {flag : Bool} (steady : store.interpreter.registry.Steady flag)
include steady

theorem steady_answerText (query : Atom) : Steady flag (store.answerText query) := by
  refine (Steady.evaluateCancellable steady query).bind fun found => ?_
  cases found <;> exact Steady.pure _

theorem steady_answerTexts (queries : List Atom) : Steady flag (store.answerTexts queries) := by
  induction queries with
  | nil => exact Steady.pure _
  | cons query queries ih =>
    refine (store.steady_answerText steady query).bind fun first => ?_
    cases first with
    | error e => exact Steady.pure _
    | ok first =>
      refine ih.bind fun others => ?_
      cases others <;> exact Steady.pure _

theorem steady_executeQuery (text : String) : Steady flag (store.executeQuery text) := by
  rw [executeQuery]
  split
  · exact Steady.pure _
  · exact store.steady_answerText steady _

theorem steady_executeQueries (texts : List String) : Steady flag (store.executeQueries texts) := by
  rw [executeQueries]
  split
  · exact Steady.pure _
  · exact store.steady_answerTexts steady _

theorem steady_applyRule (text : String) : Steady flag (store.applyRule text) := by
  rw [applyRule]
  split
  · exact Steady.pure _
  · refine (Steady.applyRule steady _).bind fun added => ?_
    cases added <;> exact Steady.pure _

end

/-- What a store is asked for, also by way of the interpreter that it shares. -/
inductive Request where
  | addFact (text : String)
  | query (text : String)
  | queries (texts : List String)
  | applyRule (text : String)
  | cancel
  | shared (call : Call)
deriving DecidableEq, Inhabited, Repr

def perform : Request → Eval Unit
  | .addFact text => do let _ ← addFact text
  | .query text => do let _ ← store.executeQuery text
  | .queries texts => do let _ ← store.executeQueries texts
  | .applyRule text => do let _ ← store.applyRule text
  | .cancel => cancel
  | .shared call => do let _ ← call.perform store.interpreter

def performAll : List Request → Eval Unit
  | [] => return ()
  | request :: requests => do
    store.perform request
    performAll requests

theorem performAll_append (first second : List Request) :
    store.performAll (first ++ second) = (do
      store.performAll first
      store.performAll second) := by
  induction first with
  | nil => simp [performAll]
  | cons request first ih => simp [performAll,ih]

theorem steady_addFact (text : String) {flag : Bool} : Steady flag (addFact text) := by
  rw [addFact]
  split
  · exact Steady.pure _
  · exact (Steady.change _).bind fun _ => Steady.pure _

section

variable (lasting : store.interpreter.registry.Steady true)
include lasting

theorem steady_call (call : Call) : Steady true (call.perform store.interpreter) := by
  cases call with
  | store a => exact (Steady.change _).bind fun _ => Steady.pure _
  | remove a => exact (Steady.change _).bind fun _ => Steady.pure _
  | evaluate query => exact (Steady.answers lasting query).bind fun _ => Steady.pure _
  | applyRule a =>
    refine (Steady.applyRule lasting a).bind fun added => ?_
    cases added <;> exact Steady.pure _

theorem steady_perform (request : Request) : Steady true (store.perform request) := by
  cases request with
  | addFact text => exact (steady_addFact text).bind fun _ => Steady.pure _
  | query text => exact (store.steady_executeQuery lasting text).bind fun _ => Steady.pure _
  | queries texts => exact (store.steady_executeQueries lasting texts).bind fun _ => Steady.pure _
  | applyRule text => exact (store.steady_applyRule lasting text).bind fun _ => Steady.pure _
  | shared call => exact (store.steady_call lasting call).bind fun _ => Steady.pure _
  | cancel =>
    intro world _ later ran _
    cases ran
    rfl

theorem steady_performAll (requests : List Request) : Steady true (store.performAll requests) := by
  induction requests with
  | nil => exact Steady.pure _
  | cons request requests ih => exact (store.steady_perform lasting request).bind fun _ => ih

theorem cancelled_of_performAll {before after : List Request} {world later : World}
    (ran : store.performAll (before ++ .cancel :: after) world = some ((),later)) :
    later.cancelled = true := by
  rw [performAll_append,performAll] at ran
  obtain ⟨_,earlier,_,ran⟩ := Eval.bind_eq_some_iff.mp ran
  obtain ⟨_,middle,cancelled,ran⟩ := Eval.bind_eq_some_iff.mp ran
  cases cancelled
  exact store.steady_performAll lasting after _ _ later ran rfl

end

end FactStore
end AtomLogic
