import AtomLogic.Atom
import AtomLogic.Proofs.Lexing

/-! The tokens that the written form of an atom is cut into. Inside a text, a written form
is cut the same way wherever it stands, as long as no character of a name follows it. -/

namespace AtomLogic

namespace Atom
open Text

mutual
/-- Every name in the atom can be written. -/
def isWritten : Atom → Bool
  | .sym name => isSymbolName name
  | .var name => isName name
  | .expr children => areWritten children

def areWritten : List Atom → Bool
  | [] => true
  | a :: as => a.isWritten && areWritten as
end

mutual
/-- The tokens of the written form. -/
def tokens : Atom → List Token
  | .sym name => [.sym name]
  | .var name => [.var name]
  | .expr children => .opening :: (tokensAll children ++ [.closing])

def tokensAll : List Atom → List Token
  | [] => []
  | a :: as => a.tokens ++ tokensAll as
end

theorem areWritten_iff (as : List Atom) :
    areWritten as = true ↔ ∀ a ∈ as, a.isWritten = true := by
  induction as with
  | nil => simp [areWritten]
  | cons a as ih => simp [areWritten,ih]

theorem tokensAll_eq_flatMap (as : List Atom) : tokensAll as = as.flatMap tokens := by
  induction as with
  | nil => rfl
  | cons a as ih => rw [tokensAll,ih,List.flatMap_cons]

end Atom

namespace Text

/-- A text is cut into some tokens, wherever it stands in front of the rest. -/
def Cuts (text : List Char) (tokens : List Token) (rest : List Char) : Prop :=
  ∀ position, ∃ (located : List Located) (after : Position),
    located.map Located.token = tokens ∧
      ∀ before, Cursor.tokens ⟨text ++ rest,position⟩ before =
        Cursor.tokens ⟨rest,after⟩ (located.reverse ++ before)

namespace Cuts

theorem nil (rest : List Char) : Cuts [] [] rest := fun position => ⟨[],position,rfl,fun _ => rfl⟩

theorem append {first second rest : List Char} {firstTokens secondTokens : List Token}
    (front : Cuts first firstTokens (second ++ rest)) (back : Cuts second secondTokens rest) :
    Cuts (first ++ second) (firstTokens ++ secondTokens) rest := by
  intro position
  obtain ⟨firstLocated,middle,firstSame,firstCut⟩ := front position
  obtain ⟨secondLocated,after,secondSame,secondCut⟩ := back middle
  refine ⟨firstLocated ++ secondLocated,after,by rw [List.map_append,firstSame,secondSame],?_⟩
  intro before
  rw [List.append_assoc,firstCut,secondCut,List.reverse_append,List.append_assoc]

theorem single {text rest : List Char} {token : Token} (more : token ≠ .finish)
    (cut : ∀ position, ∃ after,
      Cursor.next ⟨text ++ rest,position⟩ = (.ok ⟨token,position⟩,⟨rest,after⟩)) :
    Cuts text [token] rest := by
  intro position
  obtain ⟨after,step⟩ := cut position
  exact ⟨[⟨token,position⟩],after,rfl,Cursor.tokens_step step more⟩

theorem opening (rest : List Char) : Cuts ['('] [.opening] rest :=
  single nofun fun position => ⟨_,Cursor.next_opening rest position⟩

theorem closing (rest : List Char) : Cuts [')'] [.closing] rest :=
  single nofun fun position => ⟨_,Cursor.next_closing rest position⟩

theorem blank {c : Char} (blank : isBlank c = true) (rest : List Char) : Cuts [c] [] rest := by
  intro position
  exact ⟨[],position.after c,rfl,Cursor.tokens_congr (Cursor.next_blank blank rest position)⟩

theorem textAll {children : List Atom}
    (each : ∀ a ∈ children, ∀ rest, Ends rest → Cuts a.text.toList a.tokens rest)
    (rest : List Char) (ends : Ends rest) :
    Cuts (Atom.textAll children).toList (Atom.tokensAll children) rest := by
  induction children with
  | nil => exact nil rest
  | cons a others ih =>
    have later := ih fun b member => each b (List.mem_cons_of_mem a member)
    cases others with
    | nil =>
      rw [Atom.textAll,Atom.tokensAll,Atom.tokensAll,List.append_nil]
      exact each a List.mem_cons_self rest ends
    | cons b others =>
      rw [Atom.textAll,Atom.tokensAll,String.toList_append,String.toList_append]
      -- the space between two children ends the name that the first may be
      have space := (blank (c := ' ') (by decide) _).append later
      have first := each a List.mem_cons_self (' ' :: ((Atom.textAll (b :: others)).toList ++ rest))
        (ends_cons (by decide) _)
      rw [List.append_assoc]
      exact first.append space

theorem text {a : Atom} (written : a.isWritten = true) :
    ∀ rest, Ends rest → Cuts a.text.toList a.tokens rest := by
  induction a with
  | sym name =>
    intro rest ends
    exact single nofun fun position => ⟨_,Cursor.next_sym written ends position⟩
  | var name =>
    intro rest ends
    rw [Atom.text,String.toList_append]
    exact single nofun fun position => ⟨_,Cursor.next_var written ends position⟩
  | expr children ih =>
    intro rest _
    rw [Atom.isWritten,Atom.areWritten_iff] at written
    have inside := textAll (fun child member => ih child member (written child member))
      (')' :: rest) (ends_cons (by decide) rest)
    rw [Atom.text,Atom.tokens,String.toList_append,String.toList_append,List.append_assoc]
    exact (opening _).append (inside.append (closing rest))

theorem lines {atoms : List Atom} (written : Atom.areWritten atoms = true) (rest : List Char) :
    Cuts (String.join (atoms.map fun a => a.text ++ "\n")).toList (Atom.tokensAll atoms) rest := by
  induction atoms with
  | nil => exact nil rest
  | cons a others ih =>
    rw [Atom.areWritten,Bool.and_eq_true] at written
    have later := (blank (c := '\n') (by decide) _).append (ih written.2)
    have first := text written.1
      ('\n' :: ((String.join (others.map fun a => a.text ++ "\n")).toList ++ rest))
      (ends_cons (by decide) _)
    rw [List.map_cons,String.join_cons,Atom.tokensAll,String.toList_append,String.toList_append,
      List.append_assoc]
    exact first.append later

theorem tokenize {text : String} {tokens : List Token} (cut : Cuts text.toList tokens []) :
    ∃ located position, Text.tokenize text = .ok (located ++ [⟨.finish,position⟩]) ∧
      located.map Located.token = tokens := by
  obtain ⟨located,after,same,cut⟩ := cut .start
  refine ⟨located,after,?_,same⟩
  have cut := cut []
  rw [List.append_nil,List.append_nil,Cursor.tokens_finish (Cursor.next_nil after) rfl] at cut
  rw [Text.tokenize,Cursor.ofString,cut,List.reverse_cons,List.reverse_reverse]

end Cuts

end Text
end AtomLogic
