import AtomLogic.Text.Position

/-! What can be wrong with a text that should hold atoms. -/

namespace AtomLogic.Text

/-- The most expressions that may enclose one another in a text. -/
def maximalDepth : Nat := 1000

inductive ReadError where
  | emptyInput
  | unclosed (opened : Position)
  | unmatchedClose (position : Position)
  | emptyVariable (position : Position)
  | trailingInput (position : Position)
  | danglingQuery (position : Position)
  | tooDeep (position : Position)
deriving DecidableEq, Inhabited, Repr

def ReadError.message : ReadError → String
  | emptyInput => "empty input"
  | unclosed opened => s!"unexpected end of input: unmatched '(' at {opened.text}"
  | unmatchedClose position => s!"unmatched ')' at {position.text}"
  | emptyVariable position => s!"'$' without a variable name at {position.text}"
  | trailingInput position => s!"expected a single atom, found more input at {position.text}"
  | danglingQuery position => s!"'!' at {position.text} is not followed by a query"
  | tooDeep position =>
    s!"expression at {position.text} nests deeper than {maximalDepth} levels"

end AtomLogic.Text
