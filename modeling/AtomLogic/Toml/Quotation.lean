import AtomLogic.Toml.Scan

/-! The four kinds of quoted text in TOML: between double quotes with escapes or between
single quotes without, on one line or on several. -/

namespace AtomLogic.Toml
open Scan

def hexDigit? (c : Char) : Option Nat :=
  if '0' ≤ c && c ≤ '9' then some (c.toNat - '0'.toNat)
  else if 'a' ≤ c && c ≤ 'f' then some (c.toNat - 'a'.toNat + 10)
  else if 'A' ≤ c && c ≤ 'F' then some (c.toNat - 'A'.toNat + 10)
  else none

def ofDigits (base : Nat) (digits : List Char) : Nat :=
  digits.foldl (fun n c => n * base + (hexDigit? c).getD 0) 0

def numbered (count : Nat) : Scan Char := do
  let digits ← times count (oneOf fun c => (hexDigit? c).isSome)
  let number := ofDigits 16 digits
  ensure (decide (number.isValidChar))
  return Char.ofNat number

def escaped : Scan Char := do
  char '\\'
  match ← oneOf fun _ => true with
  | 'b' => return '\x08'
  | 't' => return '\t'
  | 'n' => return '\n'
  | 'f' => return '\x0c'
  | 'r' => return '\r'
  | '"' => return '"'
  | '\\' => return '\\'
  | 'u' => numbered 4
  | 'U' => numbered 8
  | _ => failure

def isPlain (c : Char) : Bool := isPrintable c && c != '"' && c != '\\'

def isLiteral (c : Char) : Bool := isPrintable c && c != '\''

def basicLine : Scan String := do
  char '"'
  let pieces ← many (spanSome isPlain <|> (List.singleton <$> escaped))
  char '"'
  return String.ofList pieces.flatten

def literalLine : Scan String := do
  char '\''
  let text ← spanOf isLiteral
  char '\''
  return String.ofList text

def escapedLineEnd : Scan (List Char) := do
  char '\\'
  blanks
  newline
  let _ ← many (do blanks; newline)
  blanks
  return []

def innerLineEnd : Scan (List Char) := do
  newline
  return ['\n']

def innerQuotes (quote : Char) : Scan (List Char) := do
  let quotes ← spanOf (· == quote)
  ensure (quotes.length == 1 || quotes.length == 2)
  return quotes

/-- Takes the quotes that end a text of several lines, of which the first two belong to it. -/
def closingQuotes (quote : Char) : Scan (List Char) := do
  let quotes ← spanOf (· == quote)
  ensure (3 ≤ quotes.length && quotes.length ≤ 5)
  return quotes.drop 3

def severalLines (quote : Char) (piece : Scan (List Char)) : Scan String := do
  chars [quote,quote,quote]
  let _ ← perhaps newline
  let pieces ← many (piece <|> innerQuotes quote)
  let last ← closingQuotes quote
  return String.ofList (pieces.flatten ++ last)

def basicLines : Scan String :=
  severalLines '"' (spanSome isPlain <|> escapedLineEnd <|> (List.singleton <$> escaped) <|>
    innerLineEnd)

def literalLines : Scan String :=
  severalLines '\'' (spanSome isLiteral <|> innerLineEnd)

def quotation : Scan String := basicLines <|> basicLine <|> literalLines <|> literalLine

end AtomLogic.Toml
