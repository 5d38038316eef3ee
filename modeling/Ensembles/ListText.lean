import Ensembles.Word.Reader

/-!
# Lists as text

A list of strings is written as its elements separated by single spaces. An element
is written as it stands where that reads back as one element, else in braces, and
with backslashes where braces would not match. `ListText.quote` writes one element,
`ListText.merge` a list, and `ListText.split` reads a list back.
-/

namespace Ensembles.ListText

/-- The elements of the list that `text` writes. -/
def split (text : String) : Except SyntaxError (List String) :=
  (Word.readAll .list .escapes text.toList).map fun r => r.value.map Word.literal

/-! ## Quoting -/

/-- A character that keeps an element from being written as it stands. -/
def isSpecial (c : Char) : Bool :=
  Text.isBlank c || [';', '{', '}', '[', ']', '$', '"', '\\'].contains c

/-- Whether the braces of the text match after `depth` open ones. A backslash protects
the character after it. -/
def balanced : Nat → List Char → Bool
  | depth, [] => depth == 0
  | depth, '\\' :: _ :: cs => balanced depth cs
  | depth, '{' :: cs => balanced (depth + 1) cs
  | 0, '}' :: _ => false
  | depth + 1, '}' :: cs => balanced depth cs
  | depth, _ :: cs => balanced depth cs

/-- A character of an element that is written with backslashes. -/
def escape (c : Char) : List Char :=
  if c = '\n' then ['\\', 'n']
  else if c = '\t' then ['\\', 't']
  else if c = '\r' then ['\\', 'r']
  else if isSpecial c then ['\\', c]
  else [c]

/-- An element written with backslashes. A number sign at its start is escaped too, so
that it does not start a comment. -/
def escapeAll : List Char → List Char
  | '#' :: cs => '\\' :: '#' :: cs.flatMap escape
  | cs => cs.flatMap escape

/-- The written form of an element. -/
def quoteChars (cs : List Char) : List Char :=
  if cs = [] then ['{', '}']
  else if cs.head? ≠ some '#' && !cs.any isSpecial then cs
  else if balanced 0 cs && cs.getLast? ≠ some '\\' then '{' :: cs ++ ['}']
  else escapeAll cs

/-- The written form of an element. -/
def quote (s : String) : String := .ofList (quoteChars s.toList)

/-- The written form of a list. -/
def merge (items : List String) : String := " ".intercalate (items.map quote)

end Ensembles.ListText
