/-!
# Words

A word is a sequence of pieces: text that stands for itself, variables and scripts
whose values are put in their place. Reading yields a word as a sequence of atoms,
one character or substitution each; `Word.ofAtoms` gathers the characters between
two substitutions into one piece, so that a word has no two texts side by side. No atoms
make no pieces; a word in quotation marks then is the empty text (`Word.ofQuoted`).
`ofQuoted_chars` says that characters alone make one text, `literal_ofAtoms` that no
text is lost.
-/

namespace Ensembles

/-- One character or one substitution of a word. -/
inductive Atom where
  | char (c : Char)
  | var (name : String)
  | script (source : String)
deriving DecidableEq, Repr

/-- A segment of a word. -/
inductive Piece where
  | text (text : String)
  /-- The value of the variable `name`. -/
  | var (name : String)
  /-- The value of the script between two brackets. -/
  | script (source : String)
deriving DecidableEq, Repr

/-- A word whose substitutions are not yet made. -/
structure Word where
  pieces : List Piece
deriving DecidableEq, Repr

/-- The text that the atom is written as. -/
def Atom.source : Atom → String
  | .char c => .singleton c
  | .var name => "$" ++ name
  | .script s => "[" ++ s ++ "]"

/-- The text that the piece is written as. -/
def Piece.source : Piece → String
  | .text s => s
  | .var name => "$" ++ name
  | .script s => "[" ++ s ++ "]"

/-- The text piece of a run of characters, last first, if there are any. -/
def Piece.ofRun : List Char → List Piece
  | [] => []
  | c :: run => [.text (.ofList (c :: run).reverse)]

/-- The pieces that a sequence of atoms makes after the characters `run`, last first. -/
def Piece.gather (run : List Char) : List Atom → List Piece
  | [] => ofRun run
  | .char c :: as => gather (c :: run) as
  | .var name :: as => ofRun run ++ .var name :: gather [] as
  | .script s :: as => ofRun run ++ .script s :: gather [] as

namespace Word

/-- The word of one text. -/
def ofText (text : String) : Word := ⟨[.text text]⟩

/-- The word that a sequence of atoms makes. -/
def ofAtoms (as : List Atom) : Word := ⟨Piece.gather [] as⟩

/-- The word that a sequence of atoms makes between quotation marks. -/
def ofQuoted : List Atom → Word
  | [] => ofText ""
  | a :: as => ofAtoms (a :: as)

/-- The text of the word with its substitutions as they are written. -/
def literal (w : Word) : String := String.join (w.pieces.map Piece.source)

end Word

theorem Piece.join_source_gather (run : List Char) (as : List Atom) :
    String.join ((gather run as).map source) =
      .ofList run.reverse ++ String.join (as.map Atom.source) := by
  have hrun (run : List Char) : String.join ((ofRun run).map source) = .ofList run.reverse := by
    cases run <;> simp [ofRun, source]
  induction as generalizing run with
  | nil => simp [gather, hrun]
  | cons a as ih =>
    cases a with
    | char c =>
      simp only [gather, ih, Atom.source, List.reverse_cons, String.ofList_append, List.map_cons,
        String.join_cons, String.singleton_eq_ofList, String.append_assoc]
    | var name => simp [gather, hrun, ih, source, Atom.source]
    | script s => simp [gather, hrun, ih, source, Atom.source]

theorem Piece.gather_chars (run cs : List Char) :
    gather run (cs.map .char) = ofRun (cs.reverse ++ run) := by
  induction cs generalizing run with
  | nil => rfl
  | cons c cs ih => simp [gather, ih]

theorem Word.literal_ofAtoms (as : List Atom) :
    (ofAtoms as).literal = String.join (as.map Atom.source) := by
  simp [ofAtoms, literal, Piece.join_source_gather]

theorem Word.literal_ofQuoted (as : List Atom) :
    (ofQuoted as).literal = String.join (as.map Atom.source) := by
  cases as with
  | nil => rfl
  | cons a as => exact literal_ofAtoms (a :: as)

theorem Word.ofAtoms_chars {cs : List Char} (h : cs ≠ []) :
    ofAtoms (cs.map .char) = ofText (.ofList cs) := by
  have hr : (cs.reverse ++ [] : List Char) ≠ [] := by simpa using h
  obtain ⟨d, run, hr⟩ := List.exists_cons_of_ne_nil hr
  have hg := Piece.gather_chars [] cs
  rw [hr, Piece.ofRun, ← hr, List.append_nil, List.reverse_reverse] at hg
  exact congrArg Word.mk hg

theorem Word.ofQuoted_chars (cs : List Char) : ofQuoted (cs.map .char) = ofText (.ofList cs) := by
  cases cs with
  | nil => rfl
  | cons c cs => exact ofAtoms_chars (List.cons_ne_nil c cs)

end Ensembles
