import Ensembles.Dialect

/-!
# Malformed text

The ways in which the text of a script or a list fails to split into words, and
the wording of each.
-/

namespace Ensembles

/-- Why text does not split into words. -/
inductive SyntaxError where
  | missingCloseBrace
  | missingCloseQuote
  | missingCloseBracket
  | missingCloseBraceForVariable
  | extraAfterBrace (d : Dialect)
  | extraAfterQuote (d : Dialect)
deriving DecidableEq, Repr

namespace SyntaxError

/-- The wording of the error. -/
def message : SyntaxError → String
  | missingCloseBrace => "missing close-brace"
  | missingCloseQuote => "missing \""
  | missingCloseBracket => "missing close-bracket"
  | missingCloseBraceForVariable => "missing close-brace for variable name"
  | extraAfterBrace .script => "extra characters after close-brace"
  | extraAfterBrace .list => "list element in braces followed by extra characters"
  | extraAfterQuote .script => "extra characters after close-quote"
  | extraAfterQuote .list => "list element in quotes followed by extra characters"

end SyntaxError

end Ensembles
