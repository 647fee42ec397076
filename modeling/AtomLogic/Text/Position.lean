/-! Places in a text. Lines end at line feeds only, and columns count characters. -/

namespace AtomLogic.Text

/-- The line and column of a character, both counted from one. -/
structure Position where
  line : Nat
  column : Nat
deriving DecidableEq, Inhabited, Repr

namespace Position

def start : Position := ⟨1,1⟩

def after (p : Position) (c : Char) : Position :=
  if c = '\n' then ⟨p.line + 1,1⟩ else ⟨p.line,p.column + 1⟩

def afterAll (p : Position) (text : List Char) : Position := text.foldl after p

def text (p : Position) : String := s!"line {p.line}, column {p.column}"

end Position
end AtomLogic.Text
