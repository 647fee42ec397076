import AtomLogic.Proofs.SplitPrograms

/-! Preludes with a broken file. A file is broken if its content is no text, or the text no program.
A prelude runs the programs of its files up to the first that is broken, as if they were one program,
and reports that file. What is in the files behind it makes no difference. -/

namespace AtomLogic.Session
open Text

/-- What is wrong with a file that cannot be run. -/
inductive Broken (path : String) (content : Except FileFault ByteArray) : PreludeError → Prop where
  | unreadable {fault : FileFault} :
      decodeContent content = .error fault → Broken path content (.unreadable path fault)
  | malformed {text : String} {e : ReadError} :
      decodeContent content = .ok text → parseProgram text = .error e →
        Broken path content (.malformed path e)

/-- The content is this text, which is a program. -/
def Sound (content : Except FileFault ByteArray) (text : String) : Prop :=
  decodeContent content = .ok text ∧ (parseProgram text).isOk = true

/-- The files that are found at some paths. -/
def found (read : String → Except FileFault ByteArray) (paths : List String) :
    List (String × Except FileFault ByteArray) :=
  paths.map fun path => (path,read path)

theorem sound_or_broken (path : String) (content : Except FileFault ByteArray) :
    (∃ text, Sound content text) ∨ ∃ e, Broken path content e := by
  cases decoded : decodeContent content with
  | error fault => exact .inr ⟨_,.unreadable decoded⟩
  | ok text =>
    cases parsed : parseProgram text with
    | error e => exact .inr ⟨_,.malformed decoded parsed⟩
    | ok statements => exact .inl ⟨text,decoded,by simp [parsed,Except.isOk,Except.toBool]⟩

theorem Broken.unique {path : String} {content : Except FileFault ByteArray} {e other : PreludeError}
    (broken : Broken path content e) (again : Broken path content other) : e = other := by
  cases broken <;> cases again <;> simp_all

theorem Broken.not_sound {path text : String} {content : Except FileFault ByteArray} {e : PreludeError}
    (broken : Broken path content e) : ¬Sound content text := by
  rintro ⟨decodes,accepted⟩
  cases broken with
  | unreadable decoded =>
    rw [decoded] at decodes
    cases decodes
  | malformed decoded parsed =>
    rw [decoded] at decodes
    cases decodes
    rw [parsed] at accepted
    cases accepted

/-- The files before the first broken one. -/
theorem exists_sound_front (read : String → Except FileFault ByteArray) (paths : List String) :
    ∃ front texts, List.Forall₂ (fun path text => Sound (read path) text) front texts ∧
      (paths = front ∨
        ∃ path rest e, paths = front ++ path :: rest ∧ Broken path (read path) e) := by
  induction paths with
  | nil => exact ⟨[],[],.nil,.inl rfl⟩
  | cons path paths ih =>
    rcases sound_or_broken path (read path) with ⟨text,sound⟩ | ⟨e,broken⟩
    · obtain ⟨front,texts,others,ended⟩ := ih
      refine ⟨path :: front,text :: texts,.cons sound others,?_⟩
      rcases ended with rfl | ⟨next,rest,e,rfl,broken⟩
      · exact .inl rfl
      · exact .inr ⟨next,rest,e,rfl,broken⟩
    · exact ⟨[],[],.nil,.inr ⟨path,paths,e,rfl,broken⟩⟩

variable (session : Session)

theorem runFile_of_broken {path : String} {content : Except FileFault ByteArray} {e : PreludeError}
    (broken : Broken path content e) : session.runFile path content = pure (.error e) := by
  cases broken with
  | unreadable decoded => simp [runFile,decoded]
  | malformed decoded parsed => simp [runFile,decoded,runText,parsed]

/-- A prelude goes on with further files only if none of those before is broken. -/
theorem loadPrelude_append (first second : List (String × Except FileFault ByteArray)) :
    session.loadPrelude (first ++ second) = (do
      match ← session.loadPrelude first with
      | .error e => return .error e
      | .ok _ => session.loadPrelude second) := by
  induction first with
  | nil => simp [loadPrelude]
  | cons file first ih =>
    simp only [List.cons_append,loadPrelude,bind_assoc,ih]
    congr 1
    funext outcome
    cases outcome <;> simp

theorem programs_of_sound {read : String → Except FileFault ByteArray} {paths texts : List String}
    (sound : List.Forall₂ (fun path text => Sound (read path) text) paths texts) :
    List.Forall₂ (fun file text => decodeContent file.2 = .ok text) (found read paths) texts ∧
      ∃ programs,
        List.Forall₂ (fun text statements => parseProgram text = .ok statements) texts programs := by
  induction sound with
  | nil => exact ⟨.nil,[],.nil⟩
  | @cons path text paths texts first others ih =>
    obtain ⟨decoded,accepted⟩ := first
    obtain ⟨decodedOthers,programs,parsedOthers⟩ := ih
    cases parsed : parseProgram text with
    | error e => simp [parsed,Except.isOk,Except.toBool] at accepted
    | ok statements =>
      exact ⟨.cons decoded decodedOthers,statements :: programs,.cons parsed parsedOthers⟩

/-- Sound files do what their texts do on lines of their own, in one program. -/
theorem loadPrelude_of_sound {read : String → Except FileFault ByteArray} {paths texts : List String}
    (sound : List.Forall₂ (fun path text => Sound (read path) text) paths texts) :
    ∃ run : Eval (List String), session.runText ("\n".intercalate texts) = .ok <$> run ∧
      session.loadPrelude (found read paths) = (fun _ => .ok ()) <$> run := by
  obtain ⟨decoded,programs,parsed⟩ := programs_of_sound sound
  refine ⟨List.flatten <$> programs.mapM session.runStatements,?_,?_⟩
  · rw [session.runText_flatten parsed,comp_map]
  · rw [session.loadPrelude_of_parsed decoded parsed,← comp_map]
    rfl

theorem loadPrelude_of_broken {front rest : List (String × Except FileFault ByteArray)}
    {path : String} {content : Except FileFault ByteArray} {e : PreludeError}
    {run : Eval (List String)} (loaded : session.loadPrelude front = (fun _ => .ok ()) <$> run)
    (broken : Broken path content e) :
    session.loadPrelude (front ++ (path,content) :: rest) = (fun _ => .error e) <$> run := by
  rw [session.loadPrelude_append,loaded]
  simp [loadPrelude,session.runFile_of_broken broken]

/-- Loading a prelude is running the texts of its files as one program if none of them is broken. If
one is, it is running the texts of the files before the first that is broken, which is the same as
loading these files alone, and what is reported is what is wrong with that one. -/
theorem loadPrelude_upTo_broken (session : Session) (read : String → Except FileFault ByteArray)
    (paths : List String) :
    (∃ texts run,
        List.Forall₂ (fun path text => Sound (read path) text) paths texts ∧
        session.runText ("\n".intercalate texts) = .ok <$> run ∧
        session.loadPrelude (found read paths) = (fun _ => .ok ()) <$> run) ∨
      ∃ front path rest texts run e,
        paths = front ++ path :: rest ∧
        List.Forall₂ (fun path text => Sound (read path) text) front texts ∧
        Broken path (read path) e ∧
        session.runText ("\n".intercalate texts) = .ok <$> run ∧
        session.loadPrelude (found read front) = (fun _ => .ok ()) <$> run ∧
        session.loadPrelude (found read paths) = (fun _ => .error e) <$> run := by
  obtain ⟨front,texts,sound,rfl | ⟨path,rest,e,rfl,broken⟩⟩ := exists_sound_front read paths
  · obtain ⟨run,joined,loaded⟩ := session.loadPrelude_of_sound sound
    exact .inl ⟨texts,run,sound,joined,loaded⟩
  · obtain ⟨run,joined,loaded⟩ := session.loadPrelude_of_sound sound
    refine .inr ⟨front,path,rest,texts,run,e,rfl,sound,broken,joined,loaded,?_⟩
    rw [found,List.map_append,List.map_cons]
    exact session.loadPrelude_of_broken loaded broken

/-- A file that breaks off behind a query which would store an atom. -/
private def unfinished (path : String) : Except FileFault ByteArray :=
  if path = "b" then .ok "!(assert (p c)) (p".toUTF8 else .ok "(p a) !(assert (p b))".toUTF8

/-- The query in front of the place where the second file breaks off is not run. -/
theorem loadPrelude_upTo_broken_unfinished :
    let session : Session := { interpreter := {} }
    let broken := PreludeError.malformed "b" (.unclosed ⟨1,17⟩)
    (∃ run, session.runText "(p a) !(assert (p b))" = .ok <$> run ∧
      session.loadPrelude (found unfinished ["a"]) = (fun _ => .ok ()) <$> run ∧
      session.loadPrelude (found unfinished ["a","b","c"]) = (fun _ => .error broken) <$> run) ∧
    (session.loadPrelude (found unfinished ["a","b","c"]) {}).map
        (fun (outcome,world) => (outcome,world.space.toList)) =
      some (.error broken,[.expr [.sym "p",.sym "a"],.expr [.sym "p",.sym "b"]]) := by
  intro session broken
  refine ⟨?_,by decide +kernel⟩
  have decoded : decodeContent (unfinished "a") = .ok "(p a) !(assert (p b))" := by decide +kernel
  have program : (parseProgram "(p a) !(assert (p b))").isOk = true := by decide +kernel
  have decodedToo : decodeContent (unfinished "b") = .ok "!(assert (p c)) (p" := by decide +kernel
  have fault : parseProgram "!(assert (p c)) (p" = .error (.unclosed ⟨1,17⟩) := by decide +kernel
  have second : Broken "b" (unfinished "b") broken := .malformed decodedToo fault
  rcases loadPrelude_upTo_broken session unfinished ["a","b","c"] with
    ⟨texts,_,sound,_,_⟩ | ⟨front,path,rest,texts,run,e,split,sound,breaks,joined,loaded,ended⟩
  · cases sound with
    | cons _ others =>
      cases others with
      | cons impossible _ => exact absurd impossible second.not_sound
  · -- The files in front of the broken one are sound, so that it can only be the second.
    cases sound with
    | nil =>
      obtain ⟨rfl,_⟩ := List.cons.inj split
      exact absurd ⟨decoded,program⟩ breaks.not_sound
    | cons first others =>
      rw [List.cons_append] at split
      obtain ⟨rfl,behind⟩ := List.cons.inj split
      cases others with
      | nil =>
        obtain ⟨rfl,_⟩ := List.cons.inj behind
        obtain rfl := breaks.unique second
        obtain rfl := Except.ok.inj (first.1.symm.trans decoded)
        exact ⟨run,joined,loaded,ended⟩
      | cons impossible _ =>
        obtain ⟨rfl,_⟩ := List.cons.inj behind
        exact absurd impossible second.not_sound

end AtomLogic.Session
