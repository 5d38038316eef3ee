import Ensembles.Word.Reader

/-!
# Scripts

A script is a sequence of commands, and a command a sequence of words. Commands are
separated by newlines, semicolons and comments; a comment is a number sign where a
command can start and all up to the end of its line. `Script.parse` splits a script
into commands; each remembers the line it starts on and its own text.
`splitGap_append` and `endsWord_splitGap` say that the search for the next command drops
no text and stops only where a word can start or the script ends.
-/

namespace Ensembles

/-- A command of a script. -/
structure Command where
  words : List Word
  /-- The line of the first word. The first line of the script is 1. -/
  line : Nat
  /-- The text of the command without the blanks at its end. -/
  text : String
deriving DecidableEq, Repr

namespace Script

/-- The spaces, separators and comments at the start of the text, which lies inside a
comment if `comment` is true, and the text after them. In a comment a backslash protects
the character after it, so the comment goes on after a backslash and a newline. -/
def splitGap (comment : Bool) : List Char → List Char × List Char
  | [] => ([], [])
  | '\\' :: c :: cs =>
    if comment || c = '\n' then Word.push '\\' (Word.push c (splitGap comment cs))
    else ([], '\\' :: c :: cs)
  | c :: cs =>
    if comment then Word.push c (splitGap (c ≠ '\n') cs)
    else if c = '#' then Word.push c (splitGap true cs)
    else if Dialect.script.isSpace c || Dialect.script.isSeparator c then
      Word.push c (splitGap false cs)
    else ([], c :: cs)

/-- The number of newlines in the text. -/
def newlines (cs : List Char) : Nat := cs.count '\n'

theorem splitGap_append (comment : Bool) (cs : List Char) :
    (splitGap comment cs).1 ++ (splitGap comment cs).2 = cs := by
  fun_induction splitGap comment cs with
  | case1 | case3 | case7 => rfl
  | case2 | case4 | case5 | case6 =>
    rename_i ih
    simp only [Word.push, List.cons_append, ih]

theorem endsWord_splitGap {comment : Bool} {cs : List Char} (h : (splitGap comment cs).2 ≠ []) :
    Dialect.script.endsWord (splitGap comment cs).2 = false := by
  fun_induction splitGap comment cs with
  | case1 => exact absurd rfl h
  | case2 | case4 | case5 | case6 => rename_i ih; exact ih h
  | case3 comment c cs hc =>
    rw [Dialect.endsWord.eq_3 _ _ _ fun _ _ he => hc (by simp [List.cons.inj he])]
    decide
  | case7 comment c cs hn _ _ hc =>
    rw [Dialect.endsWord.eq_3 _ _ _ fun _ => hn _ _]
    exact Bool.eq_false_iff.2 hc

theorem length_rest_lt {f : Substitutions} {cs : List Char} {r : Reading (List Word)}
    (hg : (splitGap false cs).2 ≠ []) (h : Word.readAll .script f (splitGap false cs).2 = .ok r) :
    r.rest.length < cs.length := by
  have hr := (Word.readAll_of h).length_rest_lt
    (Word.readAll_source_ne_nil (endsWord_splitGap hg) h)
  have hc := congrArg List.length (splitGap_append false cs)
  rw [List.length_append] at hc
  omega

/-- The commands of the text, which starts on the line `line`. -/
def commandsFrom (f : Substitutions) (line : Nat) (cs : List Char) :
    Except SyntaxError (List Command) :=
  if _hg : (splitGap false cs).2 = [] then .ok []
  else
    match _h : Word.readAll .script f (splitGap false cs).2 with
    | .error e => .error e
    | .ok r =>
      let first := line + newlines (splitGap false cs).1
      (commandsFrom f (first + newlines r.source) r.rest).map
        (⟨r.value, first, .ofList (Text.trimEnd r.source)⟩ :: ·)
termination_by cs.length
decreasing_by exact length_rest_lt _hg _h

/-- The commands of the script `source`, with the substitutions `f` recognised. -/
def parse (f : Substitutions) (source : String) : Except SyntaxError (List Command) :=
  commandsFrom f 1 source.toList

end Script

end Ensembles
