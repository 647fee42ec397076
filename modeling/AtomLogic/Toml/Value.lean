/-! Values of the TOML format. Floats and dates are kept as they are written, since no
setting is one. -/

namespace AtomLogic.Toml

/-- A value. A table that dotted keys made is open: more of them can add to it. -/
inductive Value where
  | string (text : String)
  | integer (value : Int)
  | float (literal : String)
  | boolean (value : Bool)
  | date (literal : String)
  | array (elements : List Value)
  | table (isOpen : Bool) (entries : List (String × Value))
deriving Inhabited, Repr

abbrev Entries := List (String × Value)

def setEntry (key : String) (value : Value) : Entries → Entries
  | [] => []
  | (other,old) :: rest =>
    if other = key then (key,value) :: rest else (other,old) :: setEntry key value rest

/-- Adds a value under a dotted key. The last part must be new, and those before it must be
new or name an open table. -/
def addEntry : List String → Value → Entries → Option Entries
  | [], _, _ => none
  | [key], value, entries =>
    match entries.lookup key with
    | none => some (entries ++ [(key,value)])
    | some _ => none
  | key :: keys, value, entries =>
    match entries.lookup key with
    | none => do return entries ++ [(key,.table true (← addEntry keys value []))]
    | some (.table true inner) => do
      return setEntry key (.table true (← addEntry keys value inner)) entries
    | some _ => none

def entriesOf (pairs : List (List String × Value)) : Option Entries :=
  pairs.foldlM (fun entries (keys,value) => addEntry keys value entries) []

end AtomLogic.Toml
