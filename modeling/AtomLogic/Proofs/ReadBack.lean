import AtomLogic.CommandLine
import AtomLogic.Proofs.Instantiation
import AtomLogic.Proofs.WrittenTokens

/-! Writing and reading are inverse exactly on the atoms that can be represented: those whose
names can be written and whose expressions nest no deeper than a text may. Everything that is
read is such an atom. -/

namespace AtomLogic

/-- Every name in the atom can be written, and its expressions nest no deeper than those of
a text may. -/
structure Atom.Representable (a : Atom) : Prop where
  written : a.isWritten = true
  shallow : a.depth ≤ Text.maximalDepth

namespace Text

/-! ### Reading the tokens of an atom -/

/-- What is left to do when an atom has been read: it goes to the innermost expression that
is open, or is the result. -/
def deliver (a : Atom) : List Frame → List Located → Except ReadError Atom × List Located
  | [], rest => (.ok a,rest)
  | frame :: stack, rest => readAtom (⟨frame.opened,a :: frame.children⟩ :: stack) rest

theorem readAtom_sym (name : String) (position : Position) (stack : List Frame)
    (rest : List Located) :
    readAtom stack (⟨.sym name,position⟩ :: rest) = deliver (.sym name) stack rest := by
  cases stack <;> rfl

theorem readAtom_var (name : String) (position : Position) (stack : List Frame)
    (rest : List Located) :
    readAtom stack (⟨.var name,position⟩ :: rest) = deliver (.var name) stack rest := by
  cases stack <;> rfl

theorem readAtom_opening {stack : List Frame} (room : stack.length < maximalDepth)
    (position : Position) (rest : List Located) :
    readAtom stack (⟨.opening,position⟩ :: rest) = readAtom (⟨position,[]⟩ :: stack) rest := by
  rw [readAtom,if_pos room]

theorem readAtom_closing (frame : Frame) (stack : List Frame) (position : Position)
    (rest : List Located) :
    readAtom (frame :: stack) (⟨.closing,position⟩ :: rest) =
      deliver (.expr frame.children.reverse) stack rest := by
  cases stack <;> rfl

theorem readAtom_tokensAll {children : List Atom}
    (each : ∀ a ∈ children, ∀ (stack : List Frame) (located rest : List Located),
      located.map Located.token = a.tokens → stack.length + a.depth ≤ maximalDepth →
      readAtom stack (located ++ rest) = deliver a stack rest)
    (frame : Frame) (stack : List Frame) (located rest : List Located)
    (same : located.map Located.token = Atom.tokensAll children)
    (room : stack.length + 1 + Atom.depthAll children ≤ maximalDepth) :
    readAtom (frame :: stack) (located ++ rest) =
      readAtom (⟨frame.opened,children.reverse ++ frame.children⟩ :: stack) rest := by
  induction children generalizing frame located with
  | nil =>
    rw [List.map_eq_nil_iff.mp same]
    rfl
  | cons a others ih =>
    rw [Atom.depthAll] at room
    obtain ⟨first,later,rfl,firstSame,laterSame⟩ := List.map_eq_append_iff.mp same
    have deeper : (frame :: stack).length + a.depth ≤ maximalDepth := by
      rw [List.length_cons]
      omega
    rw [List.append_assoc,each a List.mem_cons_self _ _ _ firstSame deeper,deliver,
      ih (fun b member => each b (List.mem_cons_of_mem a member)) _ _ laterSame (by omega),
      List.reverse_cons,List.append_assoc,List.singleton_append]

theorem readAtom_tokens (a : Atom) (stack : List Frame) (located rest : List Located)
    (same : located.map Located.token = a.tokens)
    (room : stack.length + a.depth ≤ maximalDepth) :
    readAtom stack (located ++ rest) = deliver a stack rest := by
  -- for every stack, as the children are read on top of the frame of their expression
  induction a generalizing stack located rest with
  | sym name =>
    obtain ⟨⟨token,position⟩,rfl,rfl⟩ := List.map_eq_singleton_iff.mp same
    exact readAtom_sym name position stack rest
  | var name =>
    obtain ⟨⟨token,position⟩,rfl,rfl⟩ := List.map_eq_singleton_iff.mp same
    exact readAtom_var name position stack rest
  | expr children ih =>
    rw [Atom.depth] at room
    obtain ⟨⟨token,position⟩,others,rfl,rfl,othersSame⟩ := List.map_eq_cons_iff.mp same
    obtain ⟨inside,last,rfl,insideSame,lastSame⟩ := List.map_eq_append_iff.mp othersSame
    obtain ⟨⟨token,closed⟩,rfl,rfl⟩ := List.map_eq_singleton_iff.mp lastSame
    rw [List.cons_append,readAtom_opening (by omega),List.append_assoc,
      readAtom_tokensAll ih _ _ _ _ insideSame (by omega),List.singleton_append,
      readAtom_closing,List.append_nil,List.reverse_reverse]

theorem tokens_eq_cons (a : Atom) : ∃ token others, a.tokens = token :: others ∧ token ≠ .finish := by
  cases a with
  | sym name => exact ⟨_,_,rfl,nofun⟩
  | var name => exact ⟨_,_,rfl,nofun⟩
  | expr children => exact ⟨_,_,rfl,nofun⟩

theorem atEnd_append_of_tokens {a : Atom} {located : List Located}
    (same : located.map Located.token = a.tokens) (rest : List Located) :
    atEnd (located ++ rest) = false := by
  obtain ⟨token,tokens,shape,more⟩ := tokens_eq_cons a
  rw [shape] at same
  obtain ⟨l,ls,rfl,rfl,_⟩ := List.map_eq_cons_iff.mp same
  exact beq_eq_false_iff_ne.mpr more

section
variable {text : String} {tokens left : List Located} {error : ReadError}

theorem parseAtoms_of_tokens (cut : tokenize text = .ok tokens) :
    parseAtoms text = (readAtoms tokens []).1 := by
  rw [parseAtoms,cut]
  rfl

theorem parseAtoms_of_error (failed : tokenize text = .error error) :
    parseAtoms text = .error error := by
  rw [parseAtoms,failed]
  rfl

theorem parseProgram_of_tokens (cut : tokenize text = .ok tokens) :
    parseProgram text = readStatements tokens [] := by
  rw [parseProgram,cut]
  rfl

theorem parseProgram_of_error (failed : tokenize text = .error error) :
    parseProgram text = .error error := by
  rw [parseProgram,failed]
  rfl

theorem readAtoms_ended (ended : atEnd tokens = true) (before : List Atom) :
    readAtoms tokens before = (.ok before.reverse,tokens) := by
  rw [readAtoms,if_pos ended]

theorem readAtoms_step {a : Atom} (goesOn : atEnd tokens = false)
    (step : readAtom [] tokens = (.ok a,left)) (before : List Atom) :
    readAtoms tokens before = readAtoms left (a :: before) := by
  rw [readAtoms,if_neg (Bool.eq_false_iff.mp goesOn)]
  split
  · next failed => rw [step] at failed; cases failed
  · next found => rw [step] at found; cases found; rfl

theorem readAtoms_error (goesOn : atEnd tokens = false)
    (failed : readAtom [] tokens = (.error error,left)) (before : List Atom) :
    readAtoms tokens before = (.error error,left) := by
  rw [readAtoms,if_neg (Bool.eq_false_iff.mp goesOn)]
  split
  · next found => rw [failed] at found; cases found; rfl
  · next found => rw [failed] at found; cases found

theorem readStatements_ended (ended : atEnd tokens = true) (before : List Statement) :
    readStatements tokens before = .ok before.reverse := by
  rw [readStatements,if_pos ended]

theorem readStatements_step {s : Statement} (goesOn : atEnd tokens = false)
    (step : readStatement tokens = (.ok s,left)) (before : List Statement) :
    readStatements tokens before = readStatements left (s :: before) := by
  rw [readStatements,if_neg (Bool.eq_false_iff.mp goesOn)]
  split
  · next failed => rw [step] at failed; cases failed
  · next found => rw [step] at found; cases found; rfl

theorem readStatements_error (goesOn : atEnd tokens = false)
    (failed : readStatement tokens = (.error error,left)) (before : List Statement) :
    readStatements tokens before = .error error := by
  rw [readStatements,if_neg (Bool.eq_false_iff.mp goesOn)]
  split
  · next found => rw [failed] at found; cases found; rfl
  · next found => rw [failed] at found; cases found

end

theorem readAtoms_tokensAll (atoms : List Atom)
    (shallow : ∀ a ∈ atoms, a.depth ≤ maximalDepth) (located rest : List Located)
    (same : located.map Located.token = Atom.tokensAll atoms) (ended : atEnd rest = true)
    (read : List Atom) :
    (readAtoms (located ++ rest) read).1 = .ok (read.reverse ++ atoms) := by
  induction atoms generalizing located read with
  | nil =>
    rw [List.map_eq_nil_iff.mp same,List.nil_append,readAtoms_ended ended,List.append_nil]
  | cons a others ih =>
    obtain ⟨first,later,rfl,firstSame,laterSame⟩ := List.map_eq_append_iff.mp same
    have goesOn := atEnd_append_of_tokens firstSame (later ++ rest)
    have step := readAtom_tokens a [] first (later ++ rest) firstSame
      (le_of_eq_of_le (Nat.zero_add _) (shallow a List.mem_cons_self))
    rw [List.append_assoc,readAtoms_step goesOn step,
      ih (fun b member => shallow b (List.mem_cons_of_mem a member)) later laterSame,
      List.reverse_cons,List.append_assoc,List.singleton_append]

theorem parseAtom_text {a : Atom} (representable : a.Representable) : parseAtom a.text = .ok a := by
  obtain ⟨located,position,cut,same⟩ := (Cuts.text representable.written [] ends_nil).tokenize
  have read := readAtom_tokens a [] located [⟨.finish,position⟩] same
    (le_of_eq_of_le (Nat.zero_add _) representable.shallow)
  simp only [parseAtom,cut,bind,Except.bind,read,deliver]
  rfl

theorem parseAtoms_lines {atoms : List Atom} (representable : ∀ a ∈ atoms, a.Representable) :
    parseAtoms (String.join (atoms.map fun a => a.text ++ "\n")) = .ok atoms := by
  have written := (Atom.areWritten_iff atoms).mpr fun a member => (representable a member).written
  obtain ⟨located,position,cut,same⟩ := (Cuts.lines written []).tokenize
  rw [parseAtoms_of_tokens cut]
  exact readAtoms_tokensAll atoms (fun a member => (representable a member).shallow) located _ same
    rfl []

theorem tokens_ne_queryMark {a : Atom} (plain : a ≠ .sym queryMark) {token : Token}
    {others : List Token} (shape : a.tokens = token :: others) : token ≠ .sym queryMark := by
  rintro rfl
  cases a with
  | sym name => exact plain (congrArg Atom.sym (Token.sym.inj (List.cons.inj shape).1))
  | var name => cases shape
  | expr children => cases shape

def Statement.atom : Statement → Atom
  | .assertion a => a
  | .query a => a

def Statement.tokens : Statement → List Token
  | .assertion a => a.tokens
  | .query a => .sym queryMark :: a.tokens

/-- The statement is read from its tokens: it nests no deeper than a text may, and what is
asserted does not look like the mark of a query. -/
structure Statement.Readable (s : Statement) : Prop where
  shallow : s.atom.depth ≤ maximalDepth
  plain : s ≠ .assertion (.sym queryMark)

theorem readStatement_tokens {s : Statement} (readable : s.Readable) (located rest : List Located)
    (same : located.map Located.token = s.tokens) :
    readStatement (located ++ rest) = (.ok s,rest) ∧ atEnd (located ++ rest) = false := by
  have shallow := le_of_eq_of_le (Nat.zero_add _) readable.shallow
  cases s with
  | assertion a =>
    have whole := readAtom_tokens a [] located rest same shallow
    refine ⟨?_,atEnd_append_of_tokens same rest⟩
    obtain ⟨token,tokens,shape,_⟩ := tokens_eq_cons a
    have noQuery := tokens_ne_queryMark (fun mark => readable.plain (mark ▸ rfl)) shape
    rw [Statement.tokens,shape] at same
    obtain ⟨l,ls,rfl,rfl,_⟩ := List.map_eq_cons_iff.mp same
    rw [List.cons_append] at whole ⊢
    rw [readStatement,if_neg noQuery,readAs,whole,deliver]
  | query a =>
    obtain ⟨⟨token,position⟩,others,rfl,rfl,othersSame⟩ := List.map_eq_cons_iff.mp same
    have whole := readAtom_tokens a [] others rest othersSame shallow
    refine ⟨?_,rfl⟩
    rw [List.cons_append,readStatement,if_pos rfl,atEnd_append_of_tokens othersSame rest,
      if_neg Bool.false_ne_true,readAs,whole,deliver]

theorem readStatements_tokens (statements : List Statement)
    (readable : ∀ s ∈ statements, s.Readable) (located rest : List Located)
    (same : located.map Located.token = statements.flatMap Statement.tokens)
    (ended : atEnd rest = true) (read : List Statement) :
    readStatements (located ++ rest) read = .ok (read.reverse ++ statements) := by
  induction statements generalizing located read with
  | nil =>
    rw [List.map_eq_nil_iff.mp same,List.nil_append,readStatements_ended ended,List.append_nil]
  | cons s others ih =>
    rw [List.flatMap_cons] at same
    rw [List.forall_mem_cons] at readable
    obtain ⟨first,later,rfl,firstSame,laterSame⟩ := List.map_eq_append_iff.mp same
    obtain ⟨step,goesOn⟩ := readStatement_tokens readable.1 first (later ++ rest) firstSame
    rw [List.append_assoc,readStatements_step goesOn step,ih readable.2 later laterSame,
      List.reverse_cons,List.append_assoc,List.singleton_append]

theorem parseProgram_lines {atoms : List Atom} (representable : ∀ a ∈ atoms, a.Representable)
    (plain : ∀ a ∈ atoms, a ≠ .sym queryMark) :
    parseProgram (String.join (atoms.map fun a => a.text ++ "\n")) =
      .ok (atoms.map .assertion) := by
  have written := (Atom.areWritten_iff atoms).mpr fun a member => (representable a member).written
  obtain ⟨located,position,cut,same⟩ := (Cuts.lines written []).tokenize
  have readable : ∀ s ∈ atoms.map Statement.assertion, s.Readable := by
    rw [List.forall_mem_map]
    exact fun a member => ⟨(representable a member).shallow,
      fun mark => plain a member (Statement.assertion.inj mark)⟩
  rw [parseProgram_of_tokens cut]
  refine readStatements_tokens _ readable located _ ?_ rfl []
  rw [same,Atom.tokensAll_eq_flatMap,List.flatMap_map]
  rfl

/-! ### What is read -/

/-- The children that the open expressions have so far can be written, and are shallow enough
for the place where they stand. -/
def Sound : List Frame → Prop
  | [] => True
  | frame :: stack =>
    stack.length < maximalDepth ∧
      (∀ a ∈ frame.children, a.isWritten = true ∧ stack.length + 1 + a.depth ≤ maximalDepth) ∧
        Sound stack

namespace Sound

theorem opens {stack : List Frame} (sound : Sound stack) (room : stack.length < maximalDepth)
    (position : Position) : Sound (⟨position,[]⟩ :: stack) :=
  ⟨room,List.forall_mem_nil _,sound⟩

theorem adds {frame : Frame} {stack : List Frame} {a : Atom} (sound : Sound (frame :: stack))
    (written : a.isWritten = true) (shallow : stack.length + 1 + a.depth ≤ maximalDepth) :
    Sound (⟨frame.opened,a :: frame.children⟩ :: stack) :=
  ⟨sound.1,List.forall_mem_cons.mpr ⟨⟨written,shallow⟩,sound.2.1⟩,sound.2.2⟩

theorem closes {frame : Frame} {stack : List Frame} (sound : Sound (frame :: stack)) :
    (Atom.expr frame.children.reverse).isWritten = true ∧
      stack.length + (Atom.expr frame.children.reverse).depth ≤ maximalDepth := by
  obtain ⟨room,children,_⟩ := sound
  constructor
  · rw [Atom.isWritten,Atom.areWritten_iff]
    intro a member
    exact (children a (List.mem_reverse.mp member)).1
  · have shallow : Atom.depthAll frame.children.reverse ≤ maximalDepth - (stack.length + 1) := by
      rw [Atom.depthAll_le_iff]
      intro a member
      have := (children a (List.mem_reverse.mp member)).2
      omega
    rw [Atom.depth]
    omega

end Sound

theorem representable_of_readAtom {stack : List Frame} {tokens left : List Located} {a : Atom}
    (read : readAtom stack tokens = (.ok a,left)) (sound : Sound stack)
    (written : ∀ l ∈ tokens, l.token.isWritten = true) :
    a.Representable ∧ ∀ l ∈ left, l.token.isWritten = true := by
  fun_induction readAtom stack tokens with
  | case1 | case2 | case4 | case5 => cases read
  | case3 position rest stack room ih =>
    exact ih read (sound.opens room position) (List.forall_mem_of_forall_mem_cons written)
  | case6 position rest frame =>
    cases read
    obtain ⟨named,shallow⟩ := sound.closes
    rw [List.length_nil,Nat.zero_add] at shallow
    exact ⟨⟨named,shallow⟩,List.forall_mem_of_forall_mem_cons written⟩
  | case7 position rest frame outer stack ih =>
    exact ih read (sound.2.2.adds sound.closes.1 sound.closes.2)
      (List.forall_mem_of_forall_mem_cons written)
  | case8 position rest name | case10 position rest name =>
    cases read
    exact ⟨⟨written _ List.mem_cons_self,Nat.zero_le _⟩,
      List.forall_mem_of_forall_mem_cons written⟩
  | case9 position rest name frame stack ih | case11 position rest name frame stack ih =>
    exact ih read (sound.adds (written _ List.mem_cons_self) sound.1)
      (List.forall_mem_of_forall_mem_cons written)

theorem representable_of_readAtoms {tokens : List Located} {before atoms : List Atom}
    (read : (readAtoms tokens before).1 = .ok atoms)
    (written : ∀ l ∈ tokens, l.token.isWritten = true)
    (earlier : ∀ a ∈ before, a.Representable) : ∀ a ∈ atoms, a.Representable := by
  fun_induction readAtoms tokens before with
  | case1 tokens before ended =>
    cases read
    intro a member
    exact earlier a (List.mem_reverse.mp member)
  | case2 tokens before goesOn error left step => cases read
  | case3 tokens before goesOn a left step shorter ih =>
    obtain ⟨representable,leftWritten⟩ := representable_of_readAtom step trivial written
    exact ih read leftWritten (List.forall_mem_cons.mpr ⟨representable,earlier⟩)

theorem representable_of_readAs {use : Atom → Statement} (same : ∀ a, (use a).atom = a)
    {tokens left : List Located} {statement : Statement}
    (read : readAs use tokens = (.ok statement,left))
    (written : ∀ l ∈ tokens, l.token.isWritten = true) :
    statement.atom.Representable ∧ ∀ l ∈ left, l.token.isWritten = true := by
  rw [readAs] at read
  split at read
  · next a rest step =>
    cases read
    rw [same]
    exact representable_of_readAtom step trivial written
  · cases read

theorem representable_of_readStatement {tokens left : List Located} {statement : Statement}
    (read : readStatement tokens = (.ok statement,left))
    (written : ∀ l ∈ tokens, l.token.isWritten = true) :
    statement.atom.Representable ∧ ∀ l ∈ left, l.token.isWritten = true := by
  unfold readStatement at read
  split at read
  · cases read
  · split at read
    · split at read
      · cases read
      · exact representable_of_readAs (fun _ => rfl) read
          (List.forall_mem_of_forall_mem_cons written)
    · exact representable_of_readAs (fun _ => rfl) read written

theorem representable_of_readStatements {tokens : List Located}
    {before statements : List Statement} (read : readStatements tokens before = .ok statements)
    (written : ∀ l ∈ tokens, l.token.isWritten = true)
    (earlier : ∀ s ∈ before, s.atom.Representable) : ∀ s ∈ statements, s.atom.Representable := by
  fun_induction readStatements tokens before with
  | case1 tokens before ended =>
    cases read
    intro s member
    exact earlier s (List.mem_reverse.mp member)
  | case2 tokens before goesOn error left step => cases read
  | case3 tokens before goesOn statement left step shorter ih =>
    obtain ⟨representable,leftWritten⟩ := representable_of_readStatement step written
    exact ih read leftWritten (List.forall_mem_cons.mpr ⟨representable,earlier⟩)

theorem representable_of_parseAtom {text : String} {a : Atom} (parsed : parseAtom text = .ok a) :
    a.Representable := by
  unfold parseAtom at parsed
  cases cut : tokenize text with
  | error e => rw [cut] at parsed; cases parsed
  | ok tokens =>
    rcases read : readAtom [] tokens with ⟨error | b,left⟩
    · simp only [cut,bind,Except.bind,read] at parsed
      cases parsed
    · -- what is left behind the atom decides only whether there is a fault
      obtain ⟨representable,_⟩ := representable_of_readAtom read trivial (isWritten_tokenize cut)
      simp only [cut,bind,Except.bind,read] at parsed
      split at parsed
      · cases parsed; exact representable
      · cases parsed; exact representable
      · cases parsed
      · cases parsed

theorem representable_of_parseAtoms {text : String} {atoms : List Atom}
    (parsed : parseAtoms text = .ok atoms) : ∀ a ∈ atoms, a.Representable := by
  cases cut : tokenize text with
  | error e => rw [parseAtoms_of_error cut] at parsed; cases parsed
  | ok tokens =>
    rw [parseAtoms_of_tokens cut] at parsed
    exact representable_of_readAtoms parsed (isWritten_tokenize cut) (List.forall_mem_nil _)

theorem representable_of_parseProgram {text : String} {statements : List Statement}
    (parsed : parseProgram text = .ok statements) : ∀ s ∈ statements, s.atom.Representable := by
  cases cut : tokenize text with
  | error e => rw [parseProgram_of_error cut] at parsed; cases parsed
  | ok tokens =>
    rw [parseProgram_of_tokens cut] at parsed
    exact representable_of_readStatements parsed (isWritten_tokenize cut) (List.forall_mem_nil _)

end Text

/-! ### Showing atoms again -/

theorem decodeText_toUTF8 (text : String) : decodeText text.toUTF8 = .ok text := by
  have decoded : String.fromUTF8? text.toUTF8 = some text := by
    exact dif_pos text.isValidUTF8
  rw [decodeText,decoded]

/-- The options ask to show the atoms of the standard input on the standard output. -/
structure Options.ShowInput (options : Options) : Prop where
  atoms : options.showAtoms = true
  silent : options.conversation = false
  source : options.input = some "-"
  target : options.output = none

namespace Run

theorem perform_readFiles (tree : FileTree) (input : ByteArray)
    (next : List (String × Except FileFault ByteArray) → Run) (paths : List String) :
    perform tree input (readFiles next paths) =
      perform tree input (next (paths.map fun path => (path,tree.read path))) := by
  induction paths generalizing next with
  | nil => rfl
  | cons path paths ih =>
    rw [readFiles,perform,ih]
    rfl

/-- Atoms are shown exactly if the input is text from which they are read, each on its line. -/
theorem perform_afterPrelude_iff {options : Options} (shows : options.ShowInput)
    (session : Session) (world : World) {tree left : FileTree} {input : ByteArray}
    {output : Output} :
    perform tree input (afterPrelude options session world) = (⟨output,false⟩,left) ↔
      ∃ text atoms, decodeText input = .ok text ∧ Text.parseAtoms text = .ok atoms ∧
        output = .lines (atoms.map Atom.text) ∧ left = tree := by
  simp only [afterPrelude,shows.silent,shows.source,Bool.false_eq_true,if_false,perform]
  cases decoded : decodeText input with
  | error fault => simp [fail,perform]
  | ok text =>
    simp only [runProgram,if_pos shows.atoms]
    cases parsed : Text.parseAtoms text with
    | error e => simp [fail,perform,parsed]
    | ok atoms =>
      simp only [deliver,shows.target,perform]
      constructor
      · rintro ⟨⟩
        exact ⟨text,atoms,rfl,parsed,rfl,rfl⟩
      · rintro ⟨_,_,⟨⟩,again,rfl,rfl⟩
        rw [parsed] at again
        cases again
        rfl

/-- The atoms shown are read again, and shown as they were. -/
theorem perform_afterPrelude_lines {options : Options} (shows : options.ShowInput)
    (session : Session) (world : World) (tree : FileTree) {text : String} {atoms : List Atom}
    (parsed : Text.parseAtoms text = .ok atoms) :
    perform tree (Output.lines (atoms.map Atom.text)).out.toUTF8
      (afterPrelude options session world) = (⟨.lines (atoms.map Atom.text),false⟩,tree) := by
  have again : Text.parseAtoms (Output.lines (atoms.map Atom.text)).out = .ok atoms := by
    rw [Output.lines,List.map_map]
    exact Text.parseAtoms_lines (Text.representable_of_parseAtoms parsed)
  exact (perform_afterPrelude_iff shows session world).mpr
    ⟨_,atoms,decodeText_toUTF8 _,again,rfl,rfl⟩

theorem perform_withSettings_again {options : Options} (shows : options.ShowInput)
    (settings : Settings) {tree left : FileTree} {input : ByteArray} {output : Output}
    (shown : perform tree input (withSettings options settings) = (⟨output,false⟩,left)) :
    perform tree output.out.toUTF8 (withSettings options settings) = (⟨output,false⟩,left) := by
  simp only [withSettings,perform_readFiles] at shown ⊢
  -- the files of the prelude are in the tree, so the second run finds the same ones
  generalize Session.loadPrelude _ _ _ = loaded at shown ⊢
  rcases loaded with _ | ⟨_ | _,world⟩
  · cases shown
  · cases shown
  · obtain ⟨text,atoms,_,parsed,rfl,rfl⟩ := (perform_afterPrelude_iff shows _ world).mp shown
    exact perform_afterPrelude_lines shows _ world _ parsed

/-- Whatever else the arguments ask for and the settings say, a run on what was shown shows the same. -/
theorem perform_ofArguments_again {arguments : List String} {options : Options}
    (asked : Command.ofArguments arguments {} = .ok (.run options)) (shows : options.ShowInput)
    {tree left : FileTree} {input : ByteArray} {output : Output}
    (shown : perform tree input (ofArguments arguments) = (⟨output,false⟩,left)) :
    perform tree output.out.toUTF8 (ofArguments arguments) = (⟨output,false⟩,left) := by
  rw [ofArguments,asked] at shown ⊢
  dsimp only at shown ⊢
  split at shown
  · exact perform_withSettings_again shows {} shown
  · next path named =>
    rw [perform] at shown ⊢
    cases loaded : Settings.load path (tree.read path) with
    | error e => rw [loaded] at shown; cases shown
    | ok settings =>
      rw [loaded] at shown
      exact perform_withSettings_again shows settings shown

end Run

namespace Text

/-- Reading inverts writing exactly on the representable atoms, whatever is read is
representable, and representable atoms may be written one to a line. So a run that shows the atoms of
its input shows them if the input can be read, and shows the same again when given what it showed. -/
theorem parseAtom_text_iff :
    (∀ a, parseAtom a.text = .ok a ↔ a.Representable) ∧
      (∀ text a, parseAtom text = .ok a → a.Representable ∧ parseAtom a.text = .ok a) ∧
      (∀ text atoms, parseAtoms text = .ok atoms →
        ∀ a ∈ atoms, a.Representable ∧ parseAtom a.text = .ok a) ∧
      (∀ text statements, parseProgram text = .ok statements →
        ∀ s ∈ statements, s.atom.Representable ∧ parseAtom s.atom.text = .ok s.atom) ∧
      (∀ atoms : List Atom, (∀ a ∈ atoms, a.Representable) →
        parseAtoms (String.join (atoms.map fun a => a.text ++ "\n")) = .ok atoms) ∧
      ∀ (options : Options) (session : Session) (world : World) (tree : FileTree),
        options.ShowInput →
        (∀ input output left,
          Run.perform tree input (Run.afterPrelude options session world) =
              (⟨output,false⟩,left) ↔
            ∃ text atoms, decodeText input = .ok text ∧ parseAtoms text = .ok atoms ∧
              output = .lines (atoms.map Atom.text) ∧ left = tree) ∧
        ∀ text atoms, parseAtoms text = .ok atoms →
          Run.perform tree (Output.lines (atoms.map Atom.text)).out.toUTF8
              (Run.afterPrelude options session world) =
            (⟨.lines (atoms.map Atom.text),false⟩,tree) := by
  refine ⟨fun a => ⟨representable_of_parseAtom,parseAtom_text⟩,?_,?_,?_,?_,?_⟩
  · intro text a parsed
    have representable := representable_of_parseAtom parsed
    exact ⟨representable,parseAtom_text representable⟩
  · intro text atoms parsed a member
    have representable := representable_of_parseAtoms parsed a member
    exact ⟨representable,parseAtom_text representable⟩
  · intro text statements parsed s member
    have representable := representable_of_parseProgram parsed s member
    exact ⟨representable,parseAtom_text representable⟩
  · intro atoms representable
    exact parseAtoms_lines representable
  · intro options session world tree shows
    refine ⟨fun input output left => Run.perform_afterPrelude_iff shows session world,?_⟩
    intro text atoms parsed
    exact Run.perform_afterPrelude_lines shows session world tree parsed

/-- A variable whose name has a dollar sign, and a program in which a note stands between its atoms. -/
theorem parseAtom_text_iff_likes :
    let likes : Atom := .expr [.sym "likes",.var "$x",.expr []]
    let options : Options := { input := some "-", showAtoms := true }
    let shows := Run.afterPrelude options { interpreter := {} } {}
    let shown : Output := { out := "(likes $$x ())\na\n" }
    likes.Representable ∧ parseAtom likes.text = .ok likes ∧
      Run.perform ⟨[]⟩ "( likes $$x()); note\n a".toUTF8 shows = (⟨shown,false⟩,⟨[]⟩) ∧
      Run.perform ⟨[]⟩ shown.out.toUTF8 shows = (⟨shown,false⟩,⟨[]⟩) := by
  intro likes options shows shown
  have representable : likes.Representable := ⟨by decide,by decide⟩
  have parsed : parseAtoms "( likes $$x()); note\n a" = .ok [likes,.sym "a"] := by decide +kernel
  have written : Output.lines ([likes,.sym "a"].map Atom.text) = shown := by decide +kernel
  obtain ⟨inverse,_,_,_,_,run⟩ := parseAtom_text_iff
  obtain ⟨first,again⟩ := run options { interpreter := {} } {} ⟨[]⟩ ⟨rfl,rfl,rfl,rfl⟩
  refine ⟨representable,(inverse likes).mpr representable,?_,?_⟩
  · exact (first _ _ _).mpr ⟨_,_,decodeText_toUTF8 _,parsed,written.symm,rfl⟩
  · rw [← written]
    exact again _ _ parsed

end Text
end AtomLogic
