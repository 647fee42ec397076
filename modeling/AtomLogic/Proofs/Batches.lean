import AtomLogic.Proofs.Cancellation
import AtomLogic.Proofs.SplitPrograms

/-! Batches of queries. A batch with a text that cannot be read does nothing. Any other does what its
queries do one after the other: a refusal leaves the store cancelled, so that those behind it would
be refused as well. -/

namespace AtomLogic

theorem mapM_parseAtom_ok {texts : List String}
    (readable : ∀ text ∈ texts, (Text.parseAtom text).isOk = true) :
    ∃ queries, texts.mapM Text.parseAtom = .ok queries ∧
      List.Forall₂ (fun text query => Text.parseAtom text = .ok query) texts queries := by
  induction texts with
  | nil => exact ⟨[],rfl,.nil⟩
  | cons text texts ih =>
    rw [List.forall_mem_cons] at readable
    obtain ⟨queries,read,each⟩ := ih readable.2
    cases parsed : Text.parseAtom text with
    | error e => simp [parsed,Except.isOk,Except.toBool] at readable
    | ok query =>
      refine ⟨query :: queries,?_,.cons parsed each⟩
      rw [List.mapM_cons,parsed,read]
      rfl

theorem mapM_parseAtom_error {before after : List String} {text : String} {e : Text.ReadError}
    (readable : ∀ earlier ∈ before, (Text.parseAtom earlier).isOk = true)
    (faulty : Text.parseAtom text = .error e) :
    (before ++ text :: after).mapM Text.parseAtom = .error e := by
  obtain ⟨queries,read,_⟩ := mapM_parseAtom_ok readable
  rw [List.mapM_append,read,List.mapM_cons,faulty]
  rfl

namespace FactStore

variable (store : FactStore)

/-- All of the results, or the first refusal among them. -/
def allOrRefusal (results : List (Except FactStoreError String)) :
    Except FactStoreError (List String) :=
  results.mapM id

theorem allOrRefusal_ok_cons (line : String) (results : List (Except FactStoreError String)) :
    allOrRefusal (.ok line :: results) = (line :: ·) <$> allOrRefusal results := by
  rw [allOrRefusal,allOrRefusal,List.mapM_cons]
  cases results.mapM id <;> rfl

theorem allOrRefusal_ok (lines : List String) : allOrRefusal (lines.map .ok) = .ok lines := by
  induction lines with
  | nil => rfl
  | cons line lines ih => rw [List.map_cons,allOrRefusal_ok_cons,ih]; rfl

theorem mapM_answerText_of_cancelled {world : World} (cancelled : world.cancelled = true)
    (queries : List Atom) :
    queries.mapM store.answerText world =
      some (queries.map fun _ => .error (.refused .cancelled),world) := by
  induction queries with
  | nil => rfl
  | cons query queries ih =>
    rw [List.mapM_cons]
    refine Eval.bind_eq_some_iff.mpr ⟨_,world,store.answerText_of_cancelled cancelled query,?_⟩
    exact Eval.bind_eq_some_iff.mpr ⟨_,world,ih,rfl⟩

/-- The queries behind a refusal are refused too, so nothing is lost by leaving them out. -/
theorem answerTexts_eq (queries : List Atom) (world : World) :
    store.answerTexts queries world = (allOrRefusal <$> queries.mapM store.answerText) world := by
  induction queries generalizing world with
  | nil => rfl
  | cons query queries ih =>
    rw [answerTexts,List.mapM_cons,map_bind]
    refine Eval.bind_congr fun result middle ran => ?_
    rw [bind_pure_comp,← comp_map]
    cases result with
    | error e =>
      -- The store is cancelled by now, so the others would change nothing.
      have refused := store.mapM_answerText_of_cancelled (store.cancelled_of_answerText ran) queries
      rw [Eval.map_eq_some refused]
      rfl
    | ok first =>
      have cons : allOrRefusal ∘ (.ok first :: ·) = ((first :: ·) <$> ·) ∘ allOrRefusal :=
        funext (allOrRefusal_ok_cons first)
      rw [cons,comp_map,← Eval.map_congr (ih middle),← bind_pure_comp]
      refine Eval.bind_congr fun others last _ => ?_
      cases others <;> rfl

theorem lines_of_mapM_answerText (steady : store.interpreter.registry.Steady false)
    {queries : List Atom} {world later : World} {results : List (Except FactStoreError String)}
    (running : world.cancelled = false)
    (ran : queries.mapM store.answerText world = some (results,later)) :
    ∃ lines : List String, results = lines.map .ok := by
  induction queries generalizing world results with
  | nil =>
    cases ran
    exact ⟨[],rfl⟩
  | cons query queries ih =>
    rw [List.mapM_cons] at ran
    obtain ⟨first,middle,ranFirst,ran⟩ := Eval.bind_eq_some_iff.mp ran
    obtain ⟨others,last,ranOthers,ended⟩ := Eval.bind_eq_some_iff.mp ran
    cases ended
    have runningToo := store.steady_answerText steady query world first middle ranFirst running
    obtain ⟨lines,rfl⟩ := ih runningToo ranOthers
    cases first with
    | error e => simp [store.cancelled_of_answerText ranFirst] at runningToo
    | ok line => exact ⟨line :: lines,rfl⟩

theorem executeQuery_of_parsed {text : String} {query : Atom}
    (parsed : Text.parseAtom text = .ok query) : store.executeQuery text = store.answerText query := by
  rw [executeQuery,parsed]

theorem executeQuery_of_cancelled {world : World} (cancelled : world.cancelled = true)
    (text : String) : ∃ e, store.executeQuery text world = some (.error e,world) := by
  cases parsed : Text.parseAtom text with
  | error e => exact ⟨.unreadable e,by rw [executeQuery,parsed]; rfl⟩
  | ok query =>
    rw [store.executeQuery_of_parsed parsed]
    exact ⟨_,store.answerText_of_cancelled cancelled query⟩

theorem executeQueries_of_cancelled {world : World} (cancelled : world.cancelled = true)
    {texts : List String} (nonempty : texts ≠ []) :
    ∃ e, store.executeQueries texts world = some (.error e,world) := by
  cases texts with
  | nil => exact absurd rfl nonempty
  | cons text texts =>
    rw [executeQueries,List.mapM_cons]
    cases Text.parseAtom text with
    | error e => exact ⟨.unreadable e,rfl⟩
    | ok query =>
      cases texts.mapM Text.parseAtom with
      | error e => exact ⟨.unreadable e,rfl⟩
      | ok queries => exact ⟨_,store.answerTexts_of_cancelled cancelled query queries⟩

/-- A batch reports the first of its texts that cannot be read, and changes nothing, cancelled or not.
A batch that can be read gives what its queries give one after the other; these are answers as long as
the store is not cancelled and no operation cancels it. A cancelled store refuses a batch, and once it has
been cancelled it refuses every query, whatever is asked of it before and after. -/
theorem executeQueries_allOrNothing (store : FactStore) (texts : List String) (world : World) :
    (∀ before text after e, texts = before ++ text :: after →
      (∀ earlier ∈ before, (Text.parseAtom earlier).isOk = true) → Text.parseAtom text = .error e →
        store.executeQueries texts world = some (.error (.unreadable e),world)) ∧
    ((∀ text ∈ texts, (Text.parseAtom text).isOk = true) →
      store.executeQueries texts world =
        (allOrRefusal <$> texts.mapM store.executeQuery) world ∧
      (world.cancelled = false → store.interpreter.registry.Steady false →
        (store.executeQueries texts world = none ∧ texts.mapM store.executeQuery world = none) ∨
          ∃ lines later, store.executeQueries texts world = some (.ok lines,later) ∧
            texts.mapM store.executeQuery world = some (lines.map .ok,later)) ∧
      (world.cancelled = true → texts ≠ [] →
        store.executeQueries texts world = some (.error (.refused .cancelled),world))) ∧
    (store.interpreter.registry.Steady true → ∀ before after later,
      store.performAll (before ++ .cancel :: after) world = some ((),later) →
        (∀ text, ∃ e, store.executeQuery text later = some (.error e,later)) ∧
        ∀ texts, texts ≠ [] → ∃ e, store.executeQueries texts later = some (.error e,later)) := by
  refine ⟨?unreadable,fun readable => ?readable,?cancelled⟩
  case unreadable =>
    rintro before text after e rfl readable faulty
    rw [executeQueries,mapM_parseAtom_error readable faulty]
    rfl
  case readable =>
    obtain ⟨queries,read,each⟩ := mapM_parseAtom_ok readable
    have batch : store.executeQueries texts = store.answerTexts queries := by
      rw [executeQueries,read]
    have single : texts.mapM store.executeQuery = queries.mapM store.answerText := by
      have same : texts.mapM store.executeQuery = List.map id <$> queries.mapM store.answerText :=
        mapM_of_forall₂ (each.imp fun text query parsed =>
          (store.executeQuery_of_parsed parsed).trans (id_map _).symm)
      rwa [List.map_id_fun,id_map] at same
    rw [batch,single]
    refine ⟨store.answerTexts_eq queries world,fun running steady => ?_,fun cancelled nonempty => ?_⟩
    · rw [store.answerTexts_eq]
      cases ran : queries.mapM store.answerText world with
      | none => exact .inl ⟨Eval.map_eq_none ran _,rfl⟩
      | some step =>
        obtain ⟨results,later⟩ := step
        obtain ⟨lines,rfl⟩ := store.lines_of_mapM_answerText steady running ran
        refine .inr ⟨lines,later,?_,rfl⟩
        rw [Eval.map_eq_some ran,allOrRefusal_ok]
    · cases each with
      | nil => exact absurd rfl nonempty
      | cons _ _ => exact store.answerTexts_of_cancelled cancelled _ _
  case cancelled =>
    intro lasting before after later ran
    have cancelled := store.cancelled_of_performAll lasting ran
    exact ⟨store.executeQuery_of_cancelled cancelled,fun texts nonempty =>
      store.executeQueries_of_cancelled cancelled nonempty⟩

/-- The first query stores what the second one finds. -/
theorem executeQueries_allOrNothing_asserting :
    let store : FactStore := ⟨{}⟩
    let texts := ["(assert (p a))","(p $x)"]
    let requests : List Request :=
      [.addFact "(p a)",.cancel,.applyRule "(implies (p $x) (q $x))"]
    store.executeQueries (texts ++ ["(p","$"]) {} =
        some (.error (.unreadable (.unclosed ⟨1,1⟩)),{}) ∧
      (∃ later, store.executeQueries texts {} = some (.ok ["[()]","[(p a)]"],later) ∧
        texts.mapM store.executeQuery {} = some ([.ok "[()]",.ok "[(p a)]"],later)) ∧
      store.executeQueries texts { cancelled := true } =
        some (.error (.refused .cancelled),{ cancelled := true }) ∧
      ∃ later, store.performAll requests {} = some ((),later) ∧
        .expr [.sym "q",.sym "a"] ∈ later.space.toList ∧
        ∃ e, store.executeQuery "(q $x)" later = some (.error e,later) := by
  intro store texts requests
  have readable : ∀ text ∈ texts, (Text.parseAtom text).isOk = true := by decide +kernel
  have faulty : Text.parseAtom "(p" = .error (.unclosed ⟨1,1⟩) := by decide +kernel
  have shown : (store.executeQueries texts {}).map (fun (result,_) => result.toOption) =
      some (some ["[()]","[(p a)]"]) := by decide +kernel
  obtain ⟨⟨_,later⟩,ran,stored⟩ : ∃ step, store.performAll requests {} = some step ∧
      .expr [.sym "q",.sym "a"] ∈ step.2.space.toList :=
    ⟨_,Option.eq_some_of_isSome (by decide +kernel),by decide +kernel⟩
  obtain ⟨_,batch,cancelled⟩ := executeQueries_allOrNothing store texts {}
  obtain ⟨unreadable,_⟩ := executeQueries_allOrNothing store (texts ++ ["(p","$"]) {}
  obtain ⟨_,batchToo,_⟩ := executeQueries_allOrNothing store texts { cancelled := true }
  refine ⟨unreadable texts _ ["$"] _ rfl readable faulty,?_,
    (batchToo readable).2.2 rfl (by simp [texts]),later,ran,stored,?_⟩
  · rcases (batch readable).2.1 rfl Steady.standard with ⟨stuck,_⟩ | ⟨lines,later,together,apart⟩
    · rw [stuck] at shown
      cases shown
    · rw [together] at shown
      obtain rfl : lines = ["[()]","[(p a)]"] := Option.some.inj (Option.some.inj shown)
      exact ⟨later,together,apart⟩
  · exact (cancelled Steady.standard [.addFact "(p a)"] _ later ran).1 "(q $x)"

end FactStore
end AtomLogic
