import AtomLogic.Text.Blank

/-! Completion of the word before the cursor. Places in the line are counted in bytes of
its UTF-8 encoding. The word starts one byte after the last blank or parenthesis, so a
blank that takes several bytes leaves no place where it could start. -/

namespace AtomLogic

structure Completer where
  words : List String
deriving DecidableEq, Inhabited, Repr

structure Completion where
  start : Nat
  candidates : List String
deriving DecidableEq, Inhabited, Repr

namespace Completer

def commands : List String := ["exit","quit"]

def ofWords (words : List String) : Completer :=
  ⟨((words ++ commands).mergeSort fun a b => decide (a ≤ b)).eraseReps⟩

def isSeparator (c : Char) : Bool := Text.isBlank c || c == '(' || c == ')'

def width (text : List Char) : Nat := text.foldr (fun c bytes => c.utf8Size + bytes) 0

/-- The characters in the first bytes of a text, if these are whole characters. -/
def before : Nat → List Char → Option (List Char)
  | 0, _ => some []
  | _+1, [] => none
  | pos+1, c :: rest =>
    if c.utf8Size ≤ pos + 1 then (before (pos + 1 - c.utf8Size) rest).map (c :: ·) else none

theorem width_append (front back : List Char) :
    width (front ++ back) = width front + width back := by
  induction front with
  | nil => simp [width]
  | cons c front ih =>
    simp only [width,List.cons_append,List.foldr_cons] at ih ⊢
    omega

theorem before_width (front back : List Char) :
    before (width front) (front ++ back) = some front := by
  induction front with
  | nil => simp [width,before]
  | cons c front ih =>
    have bytes := c.utf8Size_pos
    have split : width (c :: front) = c.utf8Size - 1 + width front + 1 := by
      simp only [width,List.foldr_cons]
      omega
    rw [split,List.cons_append,before,if_pos (by omega),
      show c.utf8Size - 1 + width front + 1 - c.utf8Size = width front by omega,ih]
    rfl

def lastSeparator? (text : List Char) : Option Char := text.reverse.find? isSeparator

def lastWord (text : List Char) : List Char :=
  (text.reverse.takeWhile fun c => !isSeparator c).reverse

def startingWith (completer : Completer) (word : List Char) : List String :=
  completer.words.filter fun known => word.isPrefixOf known.toList

/-- Completes the word that ends at a place in a line. There is no result if the place, or
the one where the word should start, is not between characters of the line. -/
def complete (completer : Completer) (line : String) (pos : Nat) : Option Completion := do
  let text ← before pos line.toList
  let word := lastWord text
  match lastSeparator? text with
  | some c => if c.utf8Size ≠ 1 then none
  | none => pure ()
  if word.isEmpty then return ⟨pos,[]⟩
  return ⟨pos - width word,completer.startingWith word⟩

end Completer
end AtomLogic
