import AtomLogic.Toml.Number

/-! Documents in TOML whose tables lie one level deep. A header that names a table inside
another, or an element of an array of tables, is refused. Every other part of the
format is read. -/

namespace AtomLogic.Toml
open Scan

/-- How deeply arrays and inline tables can nest, and how many parts a dotted key can have. -/
def nestingLimit : Nat := 79

def keyPart : Scan String := basicLine <|> literalLine <|> do
  let first ← oneOf isBare
  let others ← spanOf isBare
  return String.ofList (first :: others)
where
  isBare (c : Char) : Bool := c.isAlphanum || c == '_' || c == '-'

def key : Scan (List String) := do
  let parts ← separated (char '.') (do
    blanks
    let part ← keyPart
    blanks
    return part)
  ensure (!parts.isEmpty && parts.length ≤ nestingLimit)
  return parts

def boolean : Scan Value :=
  (do chars ['t','r','u','e']; return .boolean true) <|>
  (do chars ['f','a','l','s','e']; return .boolean false)

def array (element : Scan Value) : Scan Value := do
  char '['
  let elements ← separated (char ',') (do
    gap
    let value ← element
    gap
    return value)
  if !elements.isEmpty then
    let _ ← perhaps (char ',')
  gap
  char ']'
  return .array elements

def pair (value : Scan Value) : Scan (List String × Value) := do
  let keys ← key
  char '='
  blanks
  return (keys,← value)

def inlineTable (value : Scan Value) : Scan Value := do
  char '\x7b'
  let pairs ← separated (char ',') (do
    let found ← pair value
    blanks
    return found)
  blanks
  char '\x7d'
  match entriesOf pairs with
  | some entries => return .table false entries
  | none => failure

def scalar : Scan Value := (.string <$> quotation) <|> boolean <|> number

def value : Nat → Scan Value
  | 0 => scalar
  | depth+1 => scalar <|> array (value depth) <|> inlineTable (value depth)

inductive Line where
  | header (keys : List String)
  | entry (keys : List String) (value : Value)

def line : Scan (Option Line) := do
  blanks
  match ← peek with
  | some '[' =>
    char '['
    let keys ← key
    char ']'
    lineEnd
    return some (.header keys)
  | some '#' =>
    comment
    newline <|> finish
    return none
  | some '\n' =>
    newline
    return none
  | some '\r' =>
    newline
    return none
  | _ =>
    let (keys,value) ← pair (value nestingLimit)
    lineEnd
    return some (.entry keys value)

/-- The tables that lines make behind those already made, the last of which is named and
still takes entries unless it is the whole document. -/
def build (root : Entries) (section? : Option String) (entries : Entries) :
    List Line → Option Entries
  | [] =>
    match section? with
    | none => some entries
    | some name => some (root ++ [(name,.table false entries)])
  | .entry keys value :: rest => do
    build root section? (← addEntry keys value entries) rest
  | .header [name] :: rest => do
    let root ← build root section? entries []
    if (root.lookup name).isSome then none else build root (some name) [] rest
  | .header _ :: _ => none

def document : Scan Entries := do
  let _ ← perhaps (char '\ufeff')
  let lines ← many line
  blanks
  finish
  match build [] none [] (lines.filterMap id) with
  | some entries => return entries
  | none => failure

def parse (text : String) : Option Entries := (document.run text.toList).map Prod.fst

end AtomLogic.Toml
