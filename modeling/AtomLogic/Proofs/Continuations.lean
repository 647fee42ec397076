import AtomLogic.Text.Completeness
import AtomLogic.Proofs.Concatenation
import AtomLogic.Proofs.Layout

/-! What a text can become. Only the parentheses outside comments decide whether a text is ready: where
a closing one has nothing to close, or a name is missing, no more text helps, and what is still open
can be closed on a new line. So the check that decides when to stop typing says what reading will do,
for all that may still be typed. -/

namespace AtomLogic.Text

/-! ### What a text leaves open -/

/-- How far a text has come: whether it ends inside a comment, and how many parentheses are open. -/
structure Openness where
  commented : Bool
  opened : Nat
deriving DecidableEq, Repr

def Openness.after (state : Openness) (c : Char) : Openness :=
  if state.commented then ⟨c != '\n',state.opened⟩
  else if c = ';' then ⟨true,state.opened⟩
  else if c = '(' then ⟨false,state.opened + 1⟩
  else if c = ')' then ⟨false,state.opened - 1⟩
  else state

def Openness.afterAll (state : Openness) (text : List Char) : Openness := text.foldl after state

/-- The number of parentheses outside comments that a text leaves open. -/
def unclosed (text : List Char) : Nat := (Openness.afterAll ⟨false,0⟩ text).opened

namespace Openness

theorem afterAll_append (state : Openness) (first second : List Char) :
    state.afterAll (first ++ second) = (state.afterAll first).afterAll second :=
  List.foldl_append

theorem after_plain {c : Char} (code : c ≠ ';') (opening : c ≠ '(') (closing : c ≠ ')') (n : Nat) :
    after ⟨false,n⟩ c = ⟨false,n⟩ := by
  simp [after,code,opening,closing]

theorem afterAll_comment {inside : List Char} (single : '\n' ∉ inside) (n : Nat) :
    afterAll ⟨true,n⟩ inside = ⟨true,n⟩ := by
  induction inside with
  | nil => rfl
  | cons c inside ih =>
    rw [List.mem_cons,not_or] at single
    have stays : after ⟨true,n⟩ c = ⟨true,n⟩ := by simp [after,Ne.symm single.1]
    rw [afterAll,List.foldl_cons,stays]
    exact ih single.2

theorem afterAll_name {name : List Char} (chars : ∀ c ∈ name, isNameChar c = true) (n : Nat) :
    afterAll ⟨false,n⟩ name = ⟨false,n⟩ := by
  induction name with
  | nil => rfl
  | cons c name ih =>
    rw [List.forall_mem_cons] at chars
    obtain ⟨_,opening,closing,code⟩ := (isNameChar_iff c).mp chars.1
    rw [afterAll,List.foldl_cons,after_plain code opening closing]
    exact ih chars.2

/-- A gap opens and closes nothing, and what follows it does not stand in a comment. -/
theorem afterAll_gap {gap rest : List Char} (skips : Skips gap rest) (n : Nat) :
    (afterAll ⟨false,n⟩ gap).opened = n ∧ (rest ≠ [] → afterAll ⟨false,n⟩ gap = ⟨false,n⟩) := by
  induction skips with
  | nil rest => exact ⟨rfl,fun _ => rfl⟩
  | @blank c gap rest blank _ ih =>
    have plain : after ⟨false,n⟩ c = ⟨false,n⟩ :=
      after_plain (by rintro rfl; cases blank) (by rintro rfl; cases blank)
        (by rintro rfl; cases blank) n
    rw [afterAll,List.foldl_cons,plain]
    exact ih
  | @comment inside gap rest single _ ih =>
    have inner : afterAll ⟨false,n⟩ (';' :: inside) = ⟨true,n⟩ := afterAll_comment single n
    rw [afterAll_append,inner]
    exact ih
  | @unended inside single =>
    have inner : afterAll ⟨false,n⟩ (';' :: inside) = ⟨true,n⟩ := afterAll_comment single n
    rw [inner]
    exact ⟨rfl,fun more => absurd rfl more⟩

/-- What a token opens and closes. -/
theorem afterAll_token {token : Token} {rest : List Char} (leads : token.Leads rest) (n : Nat) :
    afterAll ⟨false,n⟩ token.text.toList = match token with
      | .opening => ⟨false,n + 1⟩
      | .closing => ⟨false,n - 1⟩
      | _ => ⟨false,n⟩ := by
  cases token with
  | opening => rfl
  | closing => rfl
  | sym name =>
    exact afterAll_name ((isName_iff name).mp ((isSymbolName_iff name).mp leads.written).1).2 n
  | var name =>
    rw [Token.text,String.toList_append]
    exact afterAll_name ((isName_iff name).mp leads.written).2 n
  | finish => exact absurd rfl leads.inner

end Openness

/-! ### What the scans make of it -/

/-- However they go on, the tokens close something that is not open. -/
def Breaks (opened : List Position) (located : List Located) : Prop :=
  ∃ position, ∀ more, firstFault opened (located ++ more) = some (.unmatchedClose position) ∧
    balance opened.length (located ++ more) = .invalid

/-- However they go on, both scans are behind the tokens where they would be with this open. -/
structure Leaves (opened : List Position) (located : List Located) (later : List Position) : Prop where
  fault : ∀ more, firstFault opened (located ++ more) = firstFault later more
  count : ∀ more, balance opened.length (located ++ more) = balance later.length more

/-- The scans find too much closed, or as much left open as the text of the tokens leaves. -/
def Scanned (opened : List Position) (located : List Located) (text : List Char) : Prop :=
  Breaks opened located ∨ ∃ later, Leaves opened located later ∧
    Openness.afterAll ⟨false,opened.length⟩ text = ⟨false,later.length⟩

theorem Breaks.append {opened : List Position} {located : List Located}
    (breaks : Breaks opened located) (more : List Located) : Breaks opened (located ++ more) := by
  obtain ⟨position,always⟩ := breaks
  exact ⟨position,fun further => List.append_assoc located more further ▸ always _⟩

theorem Leaves.breaks {opened later : List Position} {first second : List Located}
    (leaves : Leaves opened first later) (breaks : Breaks later second) :
    Breaks opened (first ++ second) := by
  obtain ⟨position,always⟩ := breaks
  refine ⟨position,fun more => ?_⟩
  rw [List.append_assoc,leaves.fault,leaves.count]
  exact always more

theorem Leaves.trans {opened middle later : List Position} {first second : List Located}
    (leaves : Leaves opened first middle) (next : Leaves middle second later) :
    Leaves opened (first ++ second) later where
  fault more := by rw [List.append_assoc,leaves.fault,next.fault]
  count more := by rw [List.append_assoc,leaves.count,next.count]

theorem scanned_token {token : Token} {rest : List Char} (leads : token.Leads rest)
    (opened : List Position) (position : Position)
    (room : token = .opening → opened.length < maximalDepth) :
    Scanned opened [⟨token,position⟩] token.text.toList := by
  have same := Openness.afterAll_token leads opened.length
  cases token with
  | opening =>
    refine .inr ⟨position :: opened,⟨fun more => ?_,fun more => ?_⟩,same⟩
    · simp [firstFault,room rfl]
    · simp [balance]
  | closing =>
    cases opened with
    | nil => exact .inl ⟨position,fun more => ⟨rfl,by simp [balance]⟩⟩
    | cons outer opened => exact .inr ⟨opened,⟨fun more => rfl,fun more => by simp [balance]⟩,same⟩
  | sym name | var name =>
    refine .inr ⟨opened,⟨fun more => ?_,fun more => ?_⟩,same⟩
    · simp [firstFault]
    · simp [balance]
  | finish => exact absurd rfl leads.inner

theorem Lays.scanned {front laid rest : List Char} {located : List Located}
    (lays : Lays front laid located rest) (opened : List Position)
    (shallow : ∀ part, part <+: laid →
      (Openness.afterAll ⟨false,opened.length⟩ part).opened ≤ maximalDepth) :
    Scanned opened located laid := by
  induction lays generalizing opened with
  | nil front rest => exact .inr ⟨opened,⟨fun more => rfl,fun more => rfl⟩,rfl⟩
  | @cons front gap text rest token others skips leads lays ih =>
    have passed : Openness.afterAll ⟨false,opened.length⟩ gap = ⟨false,opened.length⟩ :=
      (Openness.afterAll_gap skips _).2 (by simp [leads.text_ne_nil])
    have room : token = .opening → opened.length < maximalDepth := by
      rintro rfl
      have deeper := shallow (gap ++ ['(']) ⟨text,by simp [Token.text]⟩
      rw [Openness.afterAll_append,passed] at deeper
      exact deeper
    have begun : Openness.afterAll ⟨false,opened.length⟩ (gap ++ token.text.toList) =
        Openness.afterAll ⟨false,opened.length⟩ token.text.toList := by
      rw [Openness.afterAll_append,passed]
    rcases scanned_token leads opened (.behind (front ++ gap)) room with breaks | ⟨next,leaves,same⟩
    · exact .inl (breaks.append others)
    · have shallower : ∀ part, part <+: text →
          (Openness.afterAll ⟨false,next.length⟩ part).opened ≤ maximalDepth := by
        intro part inside
        have bound := shallow _ ((List.prefix_append_right_inj (gap ++ token.text.toList)).mpr inside)
        rwa [Openness.afterAll_append,begun,same] at bound
      rcases ih next shallower with breaks | ⟨later,further,left⟩
      · exact .inl (leaves.breaks breaks)
      · refine .inr ⟨later,leaves.trans further,?_⟩
        rw [Openness.afterAll_append,begun,same,left]

/-! ### Going on after a line end -/

theorem Skips.of_ne_nil {gap rest : List Char} (skips : Skips gap rest) (more : rest ≠ [])
    (other : List Char) : Skips gap other := by
  induction skips with
  | nil rest => exact .nil other
  | blank blank _ ih => exact .blank blank (ih more)
  | comment single _ ih => exact .comment single (ih more)
  | unended single => exact absurd rfl more

/-- A line end makes a gap of what is a gap at the end of a text. -/
theorem Skips.line {gap rest : List Char} (skips : Skips gap rest) (ended : rest = [])
    (other : List Char) : Skips (gap ++ ['\n']) other := by
  induction skips with
  | nil rest => exact .blank (by decide) (.nil other)
  | blank blank _ ih => exact .blank blank (ih ended)
  | @comment inside gap rest single _ ih =>
    rw [List.append_assoc]
    exact .comment single (ih ended)
  | unended single => exact .comment single (.nil other)

theorem Skips.ends {gap rest : List Char} (skips : Skips gap rest) (more : gap ≠ []) (other : List Char) :
    Ends (gap ++ other) := by
  cases skips with
  | nil rest => exact absurd rfl more
  | blank blank _ => exact ends_cons (isNameChar_of_blank blank) _
  | comment single _ => exact ends_cons (by decide) _
  | unended single => exact ends_cons (by decide) _

theorem Lays.of_ends {front laid rest other : List Char} {located : List Located}
    (lays : Lays front laid located rest) (ends : Ends other) : Lays front laid located other := by
  induction lays with
  | nil front rest => exact .nil front other
  | @cons front gap text rest token others skips leads lays ih =>
    refine .cons (skips.of_ne_nil (by simp [leads.text_ne_nil]) _)
      ⟨leads.inner,leads.written,fun named => ?_⟩ ih
    cases text with
    | nil => exact ends
    | cons c text => exact ends_cons (leads.maximal named c rfl) _

theorem Lays.inner {front laid rest : List Char} {located : List Located}
    (lays : Lays front laid located rest) : ∀ l ∈ located, l.token ≠ .finish := by
  induction lays with
  | nil front rest => exact List.forall_mem_nil _
  | cons skips leads lays ih => exact List.forall_mem_cons.mpr ⟨leads.inner,ih⟩

/-! ### Reading what was typed, and what may still be typed -/

theorem read_or_fault (tokens : List Located) :
    (∃ atoms, (readAtoms tokens []).1 = .ok atoms ∧ firstFault [] (content tokens) = none) ∨
      ∃ fault, (readAtoms tokens []).1 = .error fault ∧
        firstFault [] (content tokens) = some fault := by
  cases read : (readAtoms tokens []).1 with
  | ok atoms => exact .inl ⟨atoms,rfl,(tokensAll_of_readAtoms read).2⟩
  | error fault => exact .inr ⟨fault,rfl,firstFault_of_readAtoms read⟩

/-- As many closing parentheses. -/
def closers (n : Nat) : String := .ofList (List.replicate n ')')

theorem tokens_closers (n : Nat) (position : Position) (before : List Located) :
    ∃ located last, Cursor.tokens ⟨List.replicate n ')',position⟩ before =
        .ok (before.reverse ++ located ++ [⟨.finish,last⟩]) ∧
      located.map Located.token = List.replicate n .closing := by
  induction n generalizing position before with
  | zero =>
    refine ⟨[],position,?_,rfl⟩
    rw [List.replicate_zero,Cursor.tokens_finish (Cursor.next_nil position) rfl]
    simp
  | succ n ih =>
    obtain ⟨located,last,cut,same⟩ := ih (position.after ')') (⟨.closing,position⟩ :: before)
    refine ⟨⟨.closing,position⟩ :: located,last,?_,by simp [same,List.replicate_succ]⟩
    rw [List.replicate_succ,Cursor.tokens_step (Cursor.next_closing _ position) nofun,cut]
    simp

theorem firstFault_closers {opened : List Position} {located : List Located}
    (same : located.map Located.token = List.replicate opened.length .closing) :
    firstFault opened located = none := by
  induction opened generalizing located with
  | nil =>
    rw [List.map_eq_nil_iff.mp same]
    rfl
  | cons outer opened ih =>
    obtain ⟨⟨token,position⟩,others,rfl,rfl,othersSame⟩ := List.map_eq_cons_iff.mp same
    exact ih othersSame

theorem fails_of_nameless {text : String} {error : ReadError} (cut : tokenize text = .error error)
    (more : String) : ∃ error, parseAtoms (text ++ "\n" ++ more) = .error error := by
  obtain ⟨fault,failed⟩ :=
    Cursor.tokens_append_error (Cursor.separates_line more.toList) cut .start []
  refine ⟨fault,?_⟩
  have whole : tokenize (text ++ "\n" ++ more) = .error fault := by
    rw [tokenize,Cursor.ofString,String.toList_append,String.toList_append,List.append_assoc]
    exact failed
  exact parseAtoms_of_error whole

section
variable {text : String} {laid gap : List Char} {located : List Located}
  (split : text.toList = laid ++ gap) (lays : Lays [] laid located gap) (skips : Skips gap [])
include split lays skips

/-- Behind a text and a line end, the tokens are those of the text and then those of what follows. -/
theorem tokenize_line (more : String) : tokenize (text ++ "\n" ++ more) =
    Cursor.tokens ⟨more.toList,.behind (text.toList ++ ['\n'])⟩ located.reverse := by
  have line := skips.line rfl more.toList
  have cut := (lays.of_ends (line.ends (by simp) more.toList)).tokens []
  rw [Cursor.tokens_congr (line.next _)] at cut
  rw [tokenize,Cursor.ofString,String.toList_append,String.toList_append,split]
  simpa using cut

theorem completeness_of_lays :
    completeness text = balance 0 (located ++ [⟨.finish,.behind text.toList⟩]) := by
  rw [completeness,tokenize_of_lays split lays skips]

theorem read_of_lays : (∃ atoms, parseAtoms text = .ok atoms ∧ firstFault [] located = none) ∨
    ∃ fault, parseAtoms text = .error fault ∧ firstFault [] located = some fault := by
  have read := read_or_fault (located ++ [⟨.finish,.behind text.toList⟩])
  rwa [← parseAtoms_of_tokens (tokenize_of_lays split lays skips),content_finished lays.inner] at read

theorem invalid_of_breaks (breaks : Breaks [] located) : completeness text = .invalid ∧
    ∃ position, parseAtoms text = .error (.unmatchedClose position) := by
  obtain ⟨position,always⟩ := breaks
  have found := (always []).1
  rw [List.append_nil] at found
  have read := read_of_lays split lays skips
  rw [found] at read
  exact ⟨(completeness_of_lays split lays skips).trans (always _).2,position,by simpa using read⟩

theorem complete_of_leaves (leaves : Leaves [] located []) : completeness text = .complete ∧
    ∃ atoms, parseAtoms text = .ok atoms := by
  have found := leaves.fault []
  rw [List.append_nil] at found
  have read := read_of_lays split lays skips
  rw [found] at read
  exact ⟨(completeness_of_lays split lays skips).trans (leaves.count _),
    by simpa [firstFault] using read⟩

theorem incomplete_of_leaves {outer : Position} {later : List Position}
    (leaves : Leaves [] located (outer :: later)) : completeness text = .incomplete ∧
      parseAtoms text = .error (.unclosed outer) := by
  have found := leaves.fault []
  rw [List.append_nil] at found
  have read := read_of_lays split lays skips
  rw [found] at read
  exact ⟨(completeness_of_lays split lays skips).trans (leaves.count _),
    by simpa [firstFault] using read⟩

theorem fails_of_breaks (breaks : Breaks [] located) (more : String) :
    ∃ error, parseAtoms (text ++ "\n" ++ more) = .error error := by
  rw [parseAtoms,tokenize_line split lays skips]
  cases cut : Cursor.tokens ⟨more.toList,.behind (text.toList ++ ['\n'])⟩ located.reverse with
  | error error => exact ⟨error,rfl⟩
  | ok tokens =>
    obtain ⟨others,last,rfl,_⟩ := Cursor.cuts_of_tokens cut
    rcases read_or_fault (located.reverse.reverse ++ others ++ [⟨.finish,last⟩]) with
      ⟨atoms,read,none⟩ | ⟨fault,read,_⟩
    · obtain ⟨position,always⟩ := breaks
      rw [List.reverse_reverse,List.append_assoc,content_append lays.inner,(always _).1] at none
      cases none
    · exact ⟨fault,read⟩

theorem reads_of_leaves {later : List Position} (leaves : Leaves [] located later) :
    ∃ atoms, parseAtoms (text ++ "\n" ++ closers later.length) = .ok atoms := by
  obtain ⟨closing,last,cut,same⟩ := tokens_closers later.length
    (.behind (text.toList ++ ['\n'])) located.reverse
  have inner : ∀ l ∈ closing, l.token ≠ .finish := by
    intro l member
    have found : l.token ∈ closing.map Located.token := List.mem_map_of_mem member
    rw [same] at found
    rw [List.eq_of_mem_replicate found]
    nofun
  rw [parseAtoms,tokenize_line split lays skips,closers,String.toList_ofList,cut]
  rcases read_or_fault (located.reverse.reverse ++ closing ++ [⟨.finish,last⟩]) with
    ⟨atoms,read,_⟩ | ⟨fault,_,found⟩
  · exact ⟨atoms,read⟩
  · rw [List.reverse_reverse,List.append_assoc,content_append lays.inner,content_append inner,
      content_of_atEnd rfl,List.append_nil,leaves.fault,firstFault_closers same] at found
    cases found

end

/-- A text leaves open what its tokens do, whatever gap it ends with. -/
theorem unclosed_of_laid {text laid gap : List Char} {n : Nat} (split : text = laid ++ gap)
    (skips : Skips gap []) (left : Openness.afterAll ⟨false,0⟩ laid = ⟨false,n⟩) :
    unclosed text = n := by
  rw [unclosed,split,Openness.afterAll_append,left]
  exact (Openness.afterAll_gap skips n).1

/-- The check foretells reading. A text is complete if it is read as atoms, and incomplete if the fault
is that something is left open, which closing it all on a new line mends. It is invalid just if no text
behind a line end makes it one that is read. No part of the text may leave more open than a text may
nest, since the check counts on where reading gives up. -/
theorem completeness_foretells (text : String)
    (shallow : ∀ part, part <+: text.toList → unclosed part ≤ maximalDepth) :
    (completeness text = .complete ↔ ∃ atoms, parseAtoms text = .ok atoms) ∧
    (completeness text = .incomplete ↔ ∃ opened, parseAtoms text = .error (.unclosed opened)) ∧
    (completeness text = .incomplete →
      ∃ atoms, parseAtoms (text ++ "\n" ++ closers (unclosed text.toList)) = .ok atoms) ∧
    (completeness text = .invalid ↔
      ∀ more, ∃ error, parseAtoms (text ++ "\n" ++ more) = .error error) := by
  cases cut : tokenize text with
  | error error =>
    have check : completeness text = .invalid := by rw [completeness,cut]
    have whole := parseAtoms_of_error cut
    obtain ⟨front,_,_,_,rfl⟩ := tokenize_eq_error_iff.mp cut
    simp [check,whole,fails_of_nameless cut]
  | ok tokens =>
    obtain ⟨laid,gap,located,split,lays,skips,rfl⟩ := tokenize_eq_ok_iff.mp cut
    have scanned := lays.scanned [] fun part inside =>
      shallow part (inside.trans ⟨gap,split.symm⟩)
    rcases scanned with breaks | ⟨later,leaves,left⟩
    · obtain ⟨invalid,position,failed⟩ := invalid_of_breaks split lays skips breaks
      simp [invalid,failed,fails_of_breaks split lays skips breaks]
    · obtain ⟨atoms,mended⟩ := reads_of_leaves split lays skips leaves
      rw [← unclosed_of_laid split skips left] at mended
      have helped : ¬∀ more, ∃ error, parseAtoms (text ++ "\n" ++ more) = .error error := by
        intro never
        obtain ⟨error,failed⟩ := never _
        rw [mended] at failed
        cases failed
      cases later with
      | nil =>
        obtain ⟨complete,found,read⟩ := complete_of_leaves split lays skips leaves
        simp [complete,read,helped]
      | cons outer later =>
        obtain ⟨incomplete,failed⟩ := incomplete_of_leaves split lays skips leaves
        simp [incomplete,failed,helped,mended]

private def halfTyped : String := "(f (g $x) ; ("

/-- The parenthesis in the comment is not open, so one is enough. -/
theorem completeness_foretells_halfTyped :
    (∀ part, part <+: halfTyped.toList → unclosed part ≤ maximalDepth) ∧
    unclosed halfTyped.toList = 1 ∧ completeness halfTyped = .incomplete ∧
    (∃ opened, parseAtoms halfTyped = .error (.unclosed opened)) ∧
    ∃ atoms, parseAtoms (halfTyped ++ "\n" ++ closers (unclosed halfTyped.toList)) = .ok atoms := by
  have shallow : ∀ part, part <+: halfTyped.toList → unclosed part ≤ maximalDepth := by
    have each : ∀ part ∈ halfTyped.toList.inits, unclosed part ≤ maximalDepth := by decide +kernel
    exact fun part inside => each part ((List.mem_inits part _).mpr inside)
  have check : completeness halfTyped = .incomplete := by decide +kernel
  obtain ⟨_,incomplete,mended,_⟩ := completeness_foretells halfTyped shallow
  exact ⟨shallow,by decide +kernel,check,incomplete.mp check,mended check⟩

end AtomLogic.Text
