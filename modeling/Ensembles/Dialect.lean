import Ensembles.Text.Blank

/-!
# Where words are read

Words stand in scripts and in lists. A script separates commands by newlines and
semicolons and words by spaces, tabs and carriage returns; a list has no commands,
and any blank separates its elements. In both a backslash before a newline counts
as blank space. `Dialect.endsWord` says where a word ends, `Dialect.splitSpace`
takes the space before one off, and `splitSpace_of_not_endsWord` says that there is none
where a word can start.
-/

namespace Ensembles

/-- The text that words are read from. -/
inductive Dialect where
  | script
  | list
deriving DecidableEq, Repr

/-- The substitutions that are recognised in words that are not in braces. -/
structure Substitutions where
  ofBackslashes : Bool
  ofVariables : Bool
  ofCommands : Bool
deriving DecidableEq, Repr

/-- What the words of an evaluated script are read with. -/
def Substitutions.all : Substitutions := ⟨true, true, true⟩

/-- What lists and declarations are read with. -/
def Substitutions.escapes : Substitutions := ⟨true, false, false⟩

namespace Dialect

/-- A character between words. -/
def isSpace : Dialect → Char → Bool
  | .script, c => c == ' ' || c == '\t' || c == '\r'
  | .list, c => Text.isBlank c

/-- A character between commands. -/
def isSeparator : Dialect → Char → Bool
  | .script, c => c == '\n' || c == ';'
  | .list, _ => false

/-- Whether a word that is read up to here ends here. -/
def endsWord (d : Dialect) : List Char → Bool
  | [] => true
  | '\\' :: '\n' :: _ => true
  | c :: _ => d.isSpace c || d.isSeparator c

/-- The space at the start of the text, and the text after it. -/
def splitSpace (d : Dialect) : List Char → List Char × List Char
  | [] => ([], [])
  | '\\' :: '\n' :: cs => ('\\' :: '\n' :: (splitSpace d cs).1, (splitSpace d cs).2)
  | c :: cs =>
    if d.isSpace c then (c :: (splitSpace d cs).1, (splitSpace d cs).2) else ([], c :: cs)

theorem splitSpace_append (d : Dialect) (cs : List Char) :
    (d.splitSpace cs).1 ++ (d.splitSpace cs).2 = cs := by
  fun_induction splitSpace d cs with
  | case1 | case4 => rfl
  | case2 cs ih => simp only [List.cons_append, ih]
  | case3 c cs _ _ ih => simp only [List.cons_append, ih]

theorem splitSpace_of_not_endsWord {d : Dialect} {cs : List Char} (h : d.endsWord cs = false) :
    d.splitSpace cs = ([], cs) := by
  fun_cases splitSpace d cs with
  | case1 | case4 => rfl
  | case2 => simp [endsWord] at h
  | case3 c cs hn hc =>
    rw [endsWord.eq_3 d c cs hn, hc] at h
    simp at h

end Dialect

end Ensembles
