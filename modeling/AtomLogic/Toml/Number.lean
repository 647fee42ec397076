import AtomLogic.Toml.Quotation
import AtomLogic.Toml.Value

/-! Numbers, dates and times in TOML. Integers have 64 bits. A float is read for its form
only, but one that rounds to positive infinity is refused. -/

namespace AtomLogic.Toml
open Scan

def isDigitOf (base : Nat) (c : Char) : Bool := (hexDigit? c).any (· < base)

/-- Takes digits, with single underscores between some of them, and drops the underscores. -/
def digitRun (base : Nat) : Scan (List Char) := do
  let first ← oneOf (isDigitOf base)
  let others ← many ((do char '_'; oneOf (isDigitOf base)) <|> oneOf (isDigitOf base))
  return first :: others

def sign : Scan Bool := do
  match ← perhaps (oneOf fun c => c == '+' || c == '-') with
  | some '-' => return true
  | _ => return false

def whole : Scan (List Char) :=
  (do char '0'; return ['0']) <|> digitRun 10

def maximalInteger : Nat := 0x7fffffffffffffff

def decimalInteger : Scan Value := do
  let negative ← sign
  let magnitude := ofDigits 10 (← whole)
  ensure (decide (magnitude ≤ if negative then maximalInteger + 1 else maximalInteger))
  return .integer (if negative then -magnitude else magnitude)

def markedInteger (mark : Char) (base : Nat) : Scan Value := do
  chars ['0',mark]
  let magnitude := ofDigits base (← digitRun base)
  ensure (decide (magnitude ≤ maximalInteger))
  return .integer magnitude

def integer : Scan Value :=
  markedInteger 'x' 16 <|> markedInteger 'o' 8 <|> markedInteger 'b' 2 <|> decimalInteger

/-- Whether a number times a power of ten is too large for a binary float of 64 bits: at
least halfway from the largest one to the next power of two. -/
def tooLarge (magnitude : Nat) (exponent : Int) : Bool :=
  let bound := Nat.pow 2 1024 - Nat.pow 2 970
  let digits := (Nat.toDigits 10 magnitude).length
  if magnitude = 0 then false
  else if (digits : Int) + exponent > 320 then true
  else if (digits : Int) + exponent < 300 then false
  else bound * Nat.pow 10 (-exponent).toNat ≤ magnitude * Nat.pow 10 exponent.toNat

def exponent : Scan Int := do
  let _ ← oneOf fun c => c == 'e' || c == 'E'
  let negative ← sign
  let magnitude := ofDigits 10 (← digitRun 10)
  return if negative then -magnitude else magnitude

def fraction : Scan (List Char) := do
  char '.'
  digitRun 10

def decimalFloat : Scan Unit := do
  let negative ← sign
  let digits ← whole
  let (fraction,exponent) ←
    (do return ([],← exponent)) <|> (do return (← fraction,(← perhaps exponent).getD 0))
  let magnitude := ofDigits 10 (digits ++ fraction)
  ensure (negative || !tooLarge magnitude (exponent - fraction.length))

def specialFloat : Scan Unit := do
  let _ ← sign
  chars ['i','n','f'] <|> chars ['n','a','n']

def field (count low high : Nat) : Scan Nat := do
  let number := ofDigits 10 (← times count (oneOf (isDigitOf 10)))
  ensure (low ≤ number && number ≤ high)
  return number

def daysIn (year month : Nat) : Nat :=
  if month = 2 then
    if year % 4 = 0 && (year % 100 != 0 || year % 400 = 0) then 29 else 28
  else if month = 4 || month = 6 || month = 9 || month = 11 then 30
  else 31

def day : Scan Unit := do
  let year ← field 4 0 9999
  char '-'
  let month ← field 2 1 12
  char '-'
  let _ ← field 2 1 (daysIn year month)

def time : Scan Unit := do
  let _ ← field 2 0 23
  char ':'
  let _ ← field 2 0 59
  char ':'
  let _ ← field 2 0 60
  let _ ← perhaps (do
    char '.'
    let _ ← oneOf (isDigitOf 10)
    spanOf (isDigitOf 10))

def offset : Scan Unit := (do
    let _ ← oneOf fun c => c == 'Z' || c == 'z') <|> (do
    let _ ← oneOf fun c => c == '+' || c == '-'
    let _ ← field 2 0 23
    char ':'
    let _ ← field 2 0 59)

def moment : Scan Unit := (do
    day
    let _ ← perhaps (do
      let _ ← oneOf fun c => c == 'T' || c == 't' || c == ' '
      time
      perhaps offset)) <|> time

def written (scan : Scan Unit) : Scan String := do
  let before ← get
  scan
  let after ← get
  return String.ofList (before.take (before.length - after.length))

def number : Scan Value :=
  (.date <$> written moment) <|> (.float <$> written (decimalFloat <|> specialFloat)) <|> integer

end AtomLogic.Toml
