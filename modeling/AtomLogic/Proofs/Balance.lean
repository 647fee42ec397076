import AtomLogic.Proofs.ReadBack

/-! Which tokens are read. A scan from left to right needs no more than the places of the open
parentheses to find the fault that reading reports. Where it finds none, the tokens are those of
the atoms that are read. -/

namespace AtomLogic.Text

/-- The tokens in front of the first mark of the end, all of them if there is no mark. -/
def content (tokens : List Located) : List Located := tokens.takeWhile (·.token != .finish)

/-- The first fault of some tokens, with the places of the parentheses that are open before them,
innermost first. -/
def firstFault (opened : List Position) : List Located → Option ReadError
  | [] => opened.head?.map .unclosed
  | ⟨token,position⟩ :: rest =>
    match token, opened with
    | .opening, opened =>
      if opened.length < maximalDepth then firstFault (position :: opened) rest
      else some (.tooDeep position)
    | .closing, [] => some (.unmatchedClose position)
    | .closing, _ :: outer => firstFault outer rest
    | _, opened => firstFault opened rest

theorem firstFault_opening {stack : List Frame} (room : stack.length < maximalDepth)
    (position : Position) (rest : List Located) :
    firstFault (stack.map Frame.opened) (⟨.opening,position⟩ :: rest) =
      firstFault (position :: stack.map Frame.opened) rest := by
  rw [firstFault,if_pos (by rwa [List.length_map])]

theorem firstFault_full {stack : List Frame} (full : ¬stack.length < maximalDepth)
    (position : Position) (rest : List Located) :
    firstFault (stack.map Frame.opened) (⟨.opening,position⟩ :: rest) =
      some (.tooDeep position) := by
  rw [firstFault,if_neg (by rwa [List.length_map])]

theorem firstFault_nil {stack : List Frame} (nonempty : stack ≠ []) :
    firstFault (stack.map Frame.opened) [] = some (endError stack) := by
  cases stack with
  | nil => exact absurd rfl nonempty
  | cons frame stack => rfl

theorem content_append {used : List Located} (inside : ∀ l ∈ used, l.token ≠ .finish)
    (rest : List Located) : content (used ++ rest) = used ++ content rest :=
  List.takeWhile_append_of_pos fun l member => bne_iff_ne.mpr (inside l member)

theorem content_of_atEnd {tokens : List Located} (ended : atEnd tokens = true) :
    content tokens = [] := by
  cases tokens with
  | nil => rfl
  | cons l rest =>
    have last : l.token = .finish := beq_iff_eq.mp ended
    exact List.takeWhile_cons_of_neg (by simp [last])

theorem content_finished {located : List Located} (inside : ∀ l ∈ located, l.token ≠ .finish)
    (last : Position) : content (located ++ [⟨.finish,last⟩]) = located := by
  rw [content_append inside,content_of_atEnd rfl,List.append_nil]

theorem exists_eq_content_append (tokens : List Located) :
    ∃ rest, tokens = content tokens ++ rest ∧ atEnd rest = true := by
  refine ⟨_,List.takeWhile_append_dropWhile.symm,?_⟩
  have first := List.head?_dropWhile_not (·.token != .finish) tokens
  cases rest : tokens.dropWhile (·.token != .finish) with
  | nil => rfl
  | cons l rest =>
    rw [rest] at first
    exact beq_iff_eq.mpr (bne_eq_false_iff_eq.mp first)

/-! ### What is read -/

/-- The tokens of the open expressions, as far as they have been read. -/
def pendingTokens : List Frame → List Token
  | [] => []
  | frame :: stack => pendingTokens stack ++ .opening :: Atom.tokensAll frame.children.reverse

theorem tokensAll_append (first second : List Atom) :
    Atom.tokensAll (first ++ second) = Atom.tokensAll first ++ Atom.tokensAll second := by
  simp only [Atom.tokensAll_eq_flatMap,List.flatMap_append]

theorem pendingTokens_add (frame : Frame) (a : Atom) (stack : List Frame) :
    pendingTokens (⟨frame.opened,a :: frame.children⟩ :: stack) =
      pendingTokens (frame :: stack) ++ a.tokens := by
  simp [pendingTokens,tokensAll_append,Atom.tokensAll]

theorem pendingTokens_close (frame : Frame) (stack : List Frame) :
    pendingTokens (frame :: stack) ++ [.closing] =
      pendingTokens stack ++ (Atom.expr frame.children.reverse).tokens := by
  simp [pendingTokens,Atom.tokens]

theorem token_of_singleton {first : Located} {rest used left : List Located} {token : Token}
    (split : first :: rest = used ++ left) (same : used.map Located.token = [token]) :
    first.token = token := by
  obtain ⟨l,rfl,rfl⟩ := List.map_eq_singleton_iff.mp same
  exact congrArg Located.token (List.cons.inj split).1

/-- What has been read of an atom and what was still to read are together its tokens, and the scan
goes on behind it with nothing open. -/
theorem tokens_of_readAtom {stack : List Frame} {tokens left : List Located} {a : Atom}
    (read : readAtom stack tokens = (.ok a,left)) :
    ∃ used, tokens = used ++ left ∧ (∀ l ∈ used, l.token ≠ .finish) ∧
      pendingTokens stack ++ used.map Located.token = a.tokens ∧
        ∀ rest, firstFault (stack.map Frame.opened) (used ++ rest) = firstFault [] rest := by
  fun_induction readAtom stack tokens with
  | case1 | case2 | case4 | case5 => cases read
  | case3 position rest stack room ih =>
    obtain ⟨used,rfl,inside,same,scanned⟩ := ih read
    refine ⟨⟨.opening,position⟩ :: used,rfl,by simpa using inside,?_,?_⟩
    · rw [← same]
      simp [pendingTokens,Atom.tokensAll]
    · intro more
      rw [List.cons_append,firstFault_opening room]
      exact scanned more
  | case6 position rest frame =>
    cases read
    refine ⟨[⟨.closing,position⟩],rfl,by simp,?_,fun more => rfl⟩
    exact pendingTokens_close frame []
  | case7 position rest frame outer stack ih =>
    obtain ⟨used,rfl,inside,same,scanned⟩ := ih read
    refine ⟨⟨.closing,position⟩ :: used,rfl,by simpa using inside,?_,scanned⟩
    rw [← same,pendingTokens_add,← pendingTokens_close,List.map_cons,List.append_assoc]
    rfl
  | case8 position rest name | case10 position rest name =>
    cases read
    exact ⟨[_],rfl,by simp,rfl,fun more => rfl⟩
  | case9 position rest name frame stack ih | case11 position rest name frame stack ih =>
    obtain ⟨used,rfl,inside,same,scanned⟩ := ih read
    refine ⟨_ :: used,rfl,by simpa using inside,?_,scanned⟩
    rw [← same,pendingTokens_add,List.append_assoc]
    rfl

/-- A fault in an atom is the first fault of all the tokens. -/
theorem firstFault_of_readAtom {stack : List Frame} {tokens left : List Located}
    {fault : ReadError} (read : readAtom stack tokens = (.error fault,left))
    (begun : stack = [] → atEnd tokens = false) :
    firstFault (stack.map Frame.opened) (content tokens) = some fault := by
  fun_induction readAtom stack tokens with
  | case1 stack =>
    cases read
    exact firstFault_nil fun empty => Bool.noConfusion (begun empty)
  | case2 position rest stack =>
    cases read
    rw [content_of_atEnd rfl]
    exact firstFault_nil fun empty => Bool.noConfusion (begun empty)
  | case3 position rest stack room ih =>
    exact (firstFault_opening room position (content rest)).trans
      (ih read fun empty => absurd empty (List.cons_ne_nil _ _))
  | case4 position rest stack full =>
    cases read
    exact firstFault_full full position (content rest)
  | case5 position rest =>
    cases read
    rfl
  | case6 | case8 | case10 => cases read
  | case7 position rest frame outer stack ih =>
    exact ih read fun empty => absurd empty (List.cons_ne_nil _ _)
  | case9 position rest name frame stack ih | case11 position rest name frame stack ih =>
    exact ih read fun empty => absurd empty (List.cons_ne_nil _ _)

theorem firstFault_of_readAtoms {tokens : List Located} {before : List Atom} {fault : ReadError}
    (failed : (readAtoms tokens before).1 = .error fault) :
    firstFault [] (content tokens) = some fault := by
  fun_induction readAtoms tokens before with
  | case1 tokens before ended => cases failed
  | case2 tokens before goesOn other left step =>
    cases failed
    exact firstFault_of_readAtom step fun _ => Bool.not_eq_true _ ▸ goesOn
  | case3 tokens before goesOn a left step shorter ih =>
    obtain ⟨used,rfl,inside,_,scanned⟩ := tokens_of_readAtom step
    rw [content_append inside]
    exact (scanned _).trans (ih failed)

/-- What is read to the end has exactly the tokens in front of the mark of the end, and the scan
finds no fault in them. -/
theorem tokensAll_of_readAtoms {tokens : List Located} {before atoms : List Atom}
    (read : (readAtoms tokens before).1 = .ok atoms) :
    Atom.tokensAll before.reverse ++ (content tokens).map Located.token = Atom.tokensAll atoms ∧
      firstFault [] (content tokens) = none := by
  fun_induction readAtoms tokens before with
  | case1 tokens before ended =>
    cases read
    rw [content_of_atEnd ended]
    exact ⟨List.append_nil _,rfl⟩
  | case2 tokens before goesOn fault left step => cases read
  | case3 tokens before goesOn a left step shorter ih =>
    obtain ⟨used,rfl,inside,same,scanned⟩ := tokens_of_readAtom step
    obtain ⟨written,none⟩ := ih read
    rw [content_append inside]
    refine ⟨?_,(scanned _).trans none⟩
    calc Atom.tokensAll before.reverse ++ (used ++ content left).map Located.token
        = Atom.tokensAll before.reverse ++ a.tokens ++ (content left).map Located.token := by
          rw [← same,List.map_append,List.append_assoc,pendingTokens,List.nil_append]
      _ = Atom.tokensAll (a :: before).reverse ++ (content left).map Located.token := by
          rw [List.reverse_cons,tokensAll_append,Atom.tokensAll,Atom.tokensAll,List.append_nil]
      _ = Atom.tokensAll atoms := written

/-! ### What nests too deeply -/

theorem shallow_of_firstFault_all {children : List Atom}
    (each : ∀ a ∈ children, ∀ (opened : List Position) (located rest : List Located),
      located.map Located.token = a.tokens → opened.length ≤ maximalDepth →
      firstFault opened (located ++ rest) = none →
        opened.length + a.depth ≤ maximalDepth ∧ firstFault opened rest = none)
    {opened : List Position} {located rest : List Located}
    (same : located.map Located.token = Atom.tokensAll children)
    (room : opened.length ≤ maximalDepth)
    (faultless : firstFault opened (located ++ rest) = none) :
    (∀ a ∈ children, opened.length + a.depth ≤ maximalDepth) ∧ firstFault opened rest = none := by
  induction children generalizing located with
  | nil =>
    rw [List.map_eq_nil_iff.mp same] at faultless
    exact ⟨List.forall_mem_nil _,faultless⟩
  | cons a others ih =>
    rw [List.forall_mem_cons] at each
    obtain ⟨first,later,rfl,firstSame,laterSame⟩ := List.map_eq_append_iff.mp same
    rw [List.append_assoc] at faultless
    obtain ⟨shallow,faultless⟩ := each.1 opened first (later ++ rest) firstSame room faultless
    obtain ⟨shallowToo,faultless⟩ := ih each.2 laterSame faultless
    exact ⟨List.forall_mem_cons.mpr ⟨shallow,shallowToo⟩,faultless⟩

/-- The scan finds no fault in the tokens of an atom only if there is room for the atom. -/
theorem shallow_of_firstFault (a : Atom) (opened : List Position) (located rest : List Located)
    (same : located.map Located.token = a.tokens) (room : opened.length ≤ maximalDepth)
    (faultless : firstFault opened (located ++ rest) = none) :
    opened.length + a.depth ≤ maximalDepth ∧ firstFault opened rest = none := by
  induction a generalizing opened located rest with
  | sym name | var name =>
    obtain ⟨⟨token,position⟩,rfl,rfl⟩ := List.map_eq_singleton_iff.mp same
    exact ⟨room,faultless⟩
  | expr children ih =>
    obtain ⟨⟨token,position⟩,others,rfl,rfl,othersSame⟩ := List.map_eq_cons_iff.mp same
    obtain ⟨inside,last,rfl,insideSame,lastSame⟩ := List.map_eq_append_iff.mp othersSame
    obtain ⟨⟨token,closed⟩,rfl,rfl⟩ := List.map_eq_singleton_iff.mp lastSame
    rw [List.cons_append,firstFault] at faultless
    split at faultless
    · next deeper =>
      have room : (position :: opened).length ≤ maximalDepth := deeper
      rw [List.append_assoc] at faultless
      obtain ⟨shallow,faultless⟩ := shallow_of_firstFault_all ih insideSame room faultless
      refine ⟨?_,faultless⟩
      have bound : Atom.depthAll children ≤ maximalDepth - (opened.length + 1) := by
        rw [Atom.depthAll_le_iff]
        intro child member
        have := shallow child member
        rw [List.length_cons] at this
        omega
      rw [Atom.depth]
      omega
    · cases faultless

/-- What reading some tokens to the end reports is the first fault that the scan finds. Without a
fault it gives the atoms of exactly the tokens in front of the mark of the end, so tokens are read
if they are those of atoms that nest no deeper than a text may. A text is cut into tokens first,
and what is wrong with a token comes before any of this. -/
theorem readAtoms_iff_firstFault :
    (∀ tokens : List Located,
      (∀ fault, (readAtoms tokens []).1 = .error fault ↔
        firstFault [] (content tokens) = some fault) ∧
      (firstFault [] (content tokens) = none → ∃ atoms, (readAtoms tokens []).1 = .ok atoms) ∧
      ∀ atoms, (readAtoms tokens []).1 = .ok atoms ↔
        Atom.tokensAll atoms = (content tokens).map Located.token ∧
          ∀ a ∈ atoms, a.depth ≤ maximalDepth) ∧
      ∀ text, (∀ fault, tokenize text = .error fault → parseAtoms text = .error fault) ∧
        ∀ tokens, tokenize text = .ok tokens → parseAtoms text = (readAtoms tokens []).1 := by
  refine ⟨fun tokens => ⟨fun fault => ⟨firstFault_of_readAtoms,fun found => ?faulty⟩,
    fun none => ?faultless,fun atoms => ⟨fun read => ?shallow,fun given => ?read⟩⟩,
    fun text => ⟨fun fault cut => ?_,fun tokens cut => ?_⟩⟩
  case faulty =>
    cases read : (readAtoms tokens []).1 with
    | error other =>
      rw [firstFault_of_readAtoms read] at found
      rw [Option.some.inj found]
    | ok atoms =>
      rw [(tokensAll_of_readAtoms read).2] at found
      cases found
  case faultless =>
    cases read : (readAtoms tokens []).1 with
    | error fault =>
      rw [firstFault_of_readAtoms read] at none
      cases none
    | ok atoms => exact ⟨atoms,rfl⟩
  case shallow =>
    obtain ⟨same,none⟩ := tokensAll_of_readAtoms read
    have none : firstFault [] (content tokens ++ []) = .none := by rwa [List.append_nil]
    obtain ⟨shallow,_⟩ := shallow_of_firstFault_all (fun a _ => shallow_of_firstFault a) same
      (Nat.zero_le _) none
    exact ⟨same.symm,fun a member => Nat.zero_add a.depth ▸ shallow a member⟩
  case read =>
    obtain ⟨rest,split,ended⟩ := exists_eq_content_append tokens
    rw [split]
    exact readAtoms_tokensAll atoms given.2 _ rest given.1.symm ended []
  · rw [parseAtoms,cut]
    rfl
  · rw [parseAtoms,cut]
    rfl

example : firstFault [] [⟨.opening,⟨1,1⟩⟩,⟨.opening,⟨1,2⟩⟩,⟨.closing,⟨1,3⟩⟩] =
    some (.unclosed ⟨1,1⟩) := by decide

end AtomLogic.Text
