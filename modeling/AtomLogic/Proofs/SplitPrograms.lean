import AtomLogic.Conversation
import AtomLogic.Proofs.Concatenation
import AtomLogic.Proofs.Ensures

/-! Programs that are run in pieces. Running the pieces one after the other, entering them in a
conversation or listing them as files of the prelude does what running them together does, since
only their statements count. -/

namespace AtomLogic

theorem gather_append {m : Type → Type} [Monad m] [LawfulMonad m] {α β : Type}
    (results : α → m (List β)) (as bs : List α) :
    gather results (as ++ bs) = do
      let first ← gather results as
      let others ← gather results bs
      return first ++ others := by
  induction as with
  | nil => simp [gather]
  | cons a as ih => simp [gather,ih,← List.append_assoc]

theorem mapM_of_forall₂ {m : Type → Type} [Monad m] [LawfulMonad m] {α β δ ε : Type}
    {f : α → m δ} {g : β → m ε} {change : ε → δ} {as : List α} {bs : List β}
    (each : List.Forall₂ (fun a b => f a = change <$> g b) as bs) :
    as.mapM f = List.map change <$> bs.mapM g := by
  induction each with
  | nil => simp
  | cons first others ih => simp [List.mapM_cons,first,ih]

namespace Session
open Text

variable (session : Session)

theorem runText_of_parsed {text : String} {statements : List Statement}
    (parsed : parseProgram text = .ok statements) :
    session.runText text = .ok <$> session.runStatements statements := by
  rw [runText,parsed]
  rfl

theorem runStatements_flatten (programs : List (List Statement)) :
    session.runStatements programs.flatten =
      List.flatten <$> programs.mapM session.runStatements := by
  induction programs with
  | nil => simp [runStatements,gather]
  | cons statements programs ih =>
    rw [runStatements] at ih
    rw [List.flatten_cons,runStatements,gather_append,ih,List.mapM_cons]
    simp [runStatements]

/-- The programs of some texts, run one after the other. -/
theorem mapM_runText {texts : List String} {programs : List (List Statement)}
    (parsed : List.Forall₂ (fun text statements => parseProgram text = .ok statements)
      texts programs) :
    texts.mapM session.runText = List.map .ok <$> programs.mapM session.runStatements :=
  mapM_of_forall₂ (parsed.imp fun _ _ each => session.runText_of_parsed each)

theorem runText_flatten {texts : List String} {programs : List (List Statement)}
    (parsed : List.Forall₂ (fun text statements => parseProgram text = .ok statements)
      texts programs) :
    session.runText ("\n".intercalate texts) =
      (.ok ∘ List.flatten) <$> programs.mapM session.runStatements := by
  rw [session.runText_of_parsed (parseProgram_intercalate parsed),runStatements_flatten,
    ← comp_map]

theorem runFile_of_parsed {path : String} {content : Except FileFault ByteArray} {text : String}
    {statements : List Statement} (decoded : decodeContent content = .ok text)
    (parsed : parseProgram text = .ok statements) :
    session.runFile path content = (fun _ => .ok ()) <$> session.runStatements statements := by
  rw [runFile,decoded]
  dsimp only
  rw [session.runText_of_parsed parsed,bind_map_left]
  rfl

theorem loadPrelude_of_parsed {files : List (String × Except FileFault ByteArray)}
    {texts : List String} {programs : List (List Statement)}
    (decoded : List.Forall₂ (fun file text => decodeContent file.2 = .ok text) files texts)
    (parsed : List.Forall₂ (fun text statements => parseProgram text = .ok statements)
      texts programs) :
    session.loadPrelude files =
      (fun _ => .ok ()) <$> programs.mapM session.runStatements := by
  induction decoded generalizing programs with
  | nil =>
    cases parsed
    rfl
  | @cons file text files texts first others ih =>
    obtain ⟨path,content⟩ := file
    cases parsed with
    | cons read readOthers =>
      rw [loadPrelude,session.runFile_of_parsed first read,ih readOthers,List.mapM_cons]
      simp

end Session

theorem Output.lines_append (first others : List String) :
    Output.lines first ++ .lines others = .lines (first ++ others) := by
  change Output.mk _ _ = Output.mk _ _
  rw [List.map_append,String.join_append]
  rfl

namespace Conversation
open Text

/-- Makes some entries one after the other, up to one that ends the conversation. -/
def enterAll (conversation : Conversation) (output : Output) : List String → Turn
  | [] => .next output conversation
  | entry :: entries =>
    match conversation.enter entry with
    | .next more conversation => conversation.enterAll (output ++ more) entries
    | .last more failed => .last (output ++ more) failed

/-- The entry asks to end the conversation. -/
def Leaves (entry : String) : Prop := trimmed entry = "exit" ∨ trimmed entry = "quit"

variable (conversation : Conversation)

theorem enter_of_ran {entry : String} {statements : List Statement} {lines : List String}
    {later : World} (parsed : parseProgram entry = .ok statements) (stays : ¬Leaves entry)
    (ran : conversation.session.runStatements statements conversation.world = some (lines,later)) :
    conversation.enter entry = .next (.lines lines) { conversation with world := later } := by
  have read := parseProgram_trimmed parsed
  rw [enter]
  split
  · next blank =>
    have none : parseProgram (trimmed entry) = .ok [] := by
      rw [trimmed,String.isEmpty_iff.mp blank]
      exact parseProgram_intercalate .nil
    obtain rfl := Except.ok.inj (read.symm.trans none)
    cases ran
    rfl
  · rw [← trimmed,conversation.session.runText_of_parsed read,Eval.map_eq_some ran]
    exact if_neg stays

theorem enterAll_of_ran {entries : List String} {programs : List (List Statement)}
    (parsed : List.Forall₂ (fun entry statements => parseProgram entry = .ok statements)
      entries programs)
    (stays : ∀ entry ∈ entries, ¬Leaves entry) {outputs : List (List String)} {later : World}
    (ran : programs.mapM conversation.session.runStatements conversation.world =
      some (outputs,later)) (lines : List String) :
    conversation.enterAll (.lines lines) entries =
      .next (.lines (lines ++ outputs.flatten)) { conversation with world := later } := by
  induction parsed generalizing conversation outputs lines with
  | nil =>
    cases ran
    exact congrArg (Turn.next · conversation) (congrArg Output.lines (List.append_nil lines).symm)
  | @cons entry statements entries programs first others ih =>
    rw [List.forall_mem_cons] at stays
    rw [List.mapM_cons] at ran
    obtain ⟨more,middle,ranFirst,ran⟩ := Eval.bind_eq_some_iff.mp ran
    obtain ⟨others,last,ranOthers,ended⟩ := Eval.bind_eq_some_iff.mp ran
    cases ended
    rw [enterAll,conversation.enter_of_ran first stays.1 ranFirst]
    change enterAll _ (Output.lines lines ++ .lines more) entries = _
    rw [Output.lines_append,ih _ stays.2 ranOthers,List.flatten_cons,List.append_assoc]

end Conversation

namespace Session
open Text

theorem exists_programs {texts pieces : List String}
    (accepted : ∀ text ∈ texts, (parseProgram text).isOk = true)
    (same : List.Forall₂ (fun text piece => piece = text ∨ piece = trimmed text) texts pieces) :
    ∃ programs,
      List.Forall₂ (fun text statements => parseProgram text = .ok statements) texts programs ∧
      List.Forall₂ (fun piece statements => parseProgram piece = .ok statements) pieces programs := by
  induction same with
  | nil => exact ⟨[],.nil,.nil⟩
  | @cons text piece texts pieces first others ih =>
    rw [List.forall_mem_cons] at accepted
    obtain ⟨programs,whole,parts⟩ := ih accepted.2
    cases parsed : parseProgram text with
    | error e => rw [parsed] at accepted; cases accepted.1
    | ok statements =>
      refine ⟨statements :: programs,.cons parsed whole,.cons ?_ parts⟩
      rcases first with rfl | rfl
      · exact parsed
      · exact parseProgram_trimmed parsed

/-- Running some programs that can be read, each on lines of its own, gives what they give one
after the other and leaves the same world, also where the blanks around them are missing. As files
of the prelude or as entries of a conversation that none of them ends they leave that world too,
and the conversation shows the same lines. -/
theorem runText_intercalate (session : Session) (world : World) {texts pieces : List String}
    (accepted : ∀ text ∈ texts, (parseProgram text).isOk = true)
    (same : List.Forall₂ (fun text piece => piece = text ∨ piece = trimmed text) texts pieces) :
    (session.runText ("\n".intercalate texts) world = none ∧
        pieces.mapM session.runText world = none) ∨
      ∃ (outputs : List (List String)) (later : World),
        session.runText ("\n".intercalate texts) world = some (.ok outputs.flatten,later) ∧
        pieces.mapM session.runText world = some (outputs.map .ok,later) ∧
        (∀ files, List.Forall₂ (fun file piece => decodeContent file.2 = .ok piece) files pieces →
          session.loadPrelude files world = some (.ok (),later)) ∧
        ((∀ piece ∈ pieces, ¬Conversation.Leaves piece) →
          Conversation.enterAll ⟨session,world,""⟩ {} pieces =
            .next (.lines outputs.flatten) ⟨session,later,""⟩) := by
  obtain ⟨programs,whole,parts⟩ := exists_programs accepted same
  rw [session.runText_flatten whole,session.mapM_runText parts]
  cases ran : programs.mapM session.runStatements world with
  | none => exact .inl ⟨Eval.map_eq_none ran _,Eval.map_eq_none ran _⟩
  | some result =>
    obtain ⟨outputs,later⟩ := result
    refine .inr ⟨outputs,later,Eval.map_eq_some ran _,Eval.map_eq_some ran _,?_,?_⟩
    · intro files decoded
      rw [session.loadPrelude_of_parsed decoded parts]
      exact Eval.map_eq_some ran _
    · intro stays
      exact Conversation.enterAll_of_ran ⟨session,world,""⟩ parts stays ran []

/-- Pieces that end in a comment, in a symbol and in a mark that is itself a query. -/
theorem runText_intercalate_notes :
    let texts := ["(p a) ; (p b)"," (p c) flag\n","! (p $x) ! !\t"]
    let pieces := ["(p a) ; (p b)","(p c) flag","! (p $x) ! !"]
    (∀ text ∈ texts, (parseProgram text).isOk = true) ∧
      List.Forall₂ (fun text piece => piece = text ∨ piece = trimmed text) texts pieces ∧
      ∃ (outputs : List (List String)) (later : World),
        Session.runText ⟨{},0⟩ ("\n".intercalate texts) {} = some (.ok outputs.flatten,later) ∧
        pieces.mapM (Session.runText ⟨{},0⟩) {} = some (outputs.map .ok,later) ∧
        outputs.flatten = ["[(p a), (p c)]","[]"] := by
  intro texts pieces
  have accepted : ∀ text ∈ texts, (parseProgram text).isOk = true := by decide +kernel
  have same : List.Forall₂ (fun text piece => piece = text ∨ piece = trimmed text) texts pieces :=
    .cons (.inl rfl) (.cons (.inr (by decide +kernel)) (.cons (.inr (by decide +kernel)) .nil))
  have shown : (Session.runText ⟨{},0⟩ ("\n".intercalate texts) {}).map
      (fun (result,_) => result.toOption) = some (some ["[(p a), (p c)]","[]"]) := by
    decide +kernel
  refine ⟨accepted,same,?_⟩
  rcases runText_intercalate ⟨{},0⟩ {} accepted same with
    ⟨joined,_⟩ | ⟨outputs,later,joined,parts,_⟩
  · rw [joined] at shown
    cases shown
  · rw [joined] at shown
    exact ⟨outputs,later,joined,parts,Option.some.inj (Option.some.inj shown)⟩

end Session
end AtomLogic
