/-! Scanning characters. A scan takes characters from the front of a text, or fails and
takes none. -/

namespace AtomLogic.Toml

abbrev Scan := StateT (List Char) Option

namespace Scan

def peek : Scan (Option Char) := do return (← get).head?

def oneOf (inClass : Char → Bool) : Scan Char := fun
  | [] => none
  | c :: rest => if inClass c then some (c,rest) else none

def char (c : Char) : Scan Unit := do let _ ← oneOf (· == c)

def chars : List Char → Scan Unit
  | [] => return ()
  | c :: cs => do char c; chars cs

def spanOf (inClass : Char → Bool) : Scan (List Char) := fun text =>
  some (text.takeWhile inClass,text.dropWhile inClass)

def spanSome (inClass : Char → Bool) : Scan (List Char) := do
  let first ← oneOf inClass
  let others ← spanOf inClass
  return first :: others

def atMost {α : Type} : Nat → Scan α → Scan (List α)
  | 0, _ => return []
  | count+1, item => (do
      let first ← item
      let others ← atMost count item
      return first :: others) <|> return []

/-- Repeats a scan, which takes something each time, until it fails. -/
def many {α : Type} (item : Scan α) : Scan (List α) := fun text => atMost text.length item text

def times {α : Type} : Nat → Scan α → Scan (List α)
  | 0, _ => return []
  | count+1, item => do return (← item) :: (← times count item)

def perhaps {α : Type} (item : Scan α) : Scan (Option α) := (some <$> item) <|> return none

def separated {α : Type} (separator : Scan Unit) (item : Scan α) : Scan (List α) := (do
    let first ← item
    let others ← many (do separator; item)
    return first :: others) <|> return []

def ensure (holds : Bool) : Scan Unit := if holds then return () else failure

def finish : Scan Unit := do ensure (← get).isEmpty

def isPrintable (c : Char) : Bool := c == '\t' || (0x20 ≤ c.toNat && c.toNat != 0x7f)

def blanks : Scan Unit := do let _ ← spanOf fun c => c == ' ' || c == '\t'

def newline : Scan Unit := chars ['\n'] <|> chars ['\r','\n']

def comment : Scan Unit := do
  char '#'
  let _ ← spanOf isPrintable

def lineEnd : Scan Unit := do
  blanks
  let _ ← perhaps comment
  newline <|> finish

def gap : Scan Unit := do
  let _ ← many (do
    blanks
    let _ ← perhaps comment
    newline)
  blanks

end Scan
end AtomLogic.Toml
