import Ensembles.Catalog.Report

/-!
# The listing of all ensembles

The reports on the ensembles of an interpreter as text for a terminal: a title, and for
each ensemble its id, its namespace and a table of its parts, in which a nested ensemble
is shown below its part. Colours are escape sequences around the pieces of the text and
can be left out.
-/

namespace Ensembles.Dump

/-- What a piece of the listing shows. -/
inductive Role where
  | title
  | heading
  | label
  | partName
  | count
  | home
  | native
  | procedure
  | ensemble

/-- The number of the colour that the role is shown in. -/
def Role.colour : Role → String
  | title => "1;36"
  | heading => "90"
  | label => "2"
  | partName => "1"
  | count => "33"
  | home | procedure => "34"
  | native => "32"
  | ensemble => "36"

/-- A piece of text, in the colour of its role if there are colours. -/
def paint (coloured : Bool) (role : Role) (s : String) : String :=
  if coloured then "\x1b[" ++ role.colour ++ "m" ++ s ++ "\x1b[0m" else s

/-- The text with spaces after it up to `width` characters. -/
def padded (width : Nat) (s : String) : String :=
  s ++ .ofList (List.replicate (width - s.length) ' ')

/-- The spaces in front of lines at the depth `depth`. -/
def indent (depth : Nat) : String := .ofList (List.replicate (2 * depth) ' ')

/-- The role and the name of the kind of a part. -/
def kindName : PartKind → Role × String
  | .native => (.native, "native")
  | .procedure => (.procedure, "proc")
  | .ensemble _ => (.ensemble, "ensemble")

def PartReport.name : PartReport → String
  | .mk name _ _ _ => name

/-- The line of a part whose name is shown with `width` characters. -/
def partLine (coloured : Bool) (width depth : Nat) : PartReport → String
  | .mk name minChars usage kind =>
    indent depth ++ paint coloured .partName (padded width name) ++ " " ++
      paint coloured .count ("[" ++ minChars.repr ++ "]") ++ "  " ++
      paint coloured .label "│" ++ " " ++
      paint coloured (kindName kind).1 (kindName kind).2 ++ "  " ++
      paint coloured .label usage

/-- The number of characters that the longest name has. -/
def nameWidth (parts : List PartReport) : Nat :=
  (parts.map fun p => (PartReport.name p).length).foldl max 0

mutual

/-- The lines of an ensemble at the depth `depth`. -/
def ensembleLines (coloured : Bool) (depth : Nat) : EnsembleReport → List String
  | .mk _ id home parts =>
    (indent depth ++ paint coloured .label "id:" ++ " " ++
      paint coloured .count id.number.repr ++ "  " ++
      paint coloured .label "│ namespace:" ++ " " ++ paint coloured .home home) ::
    match parts with
    | [] => [indent depth ++ paint coloured .label "(no parts)"]
    | _ => partLines coloured (nameWidth parts) depth parts

/-- The lines of parts at the depth `depth`, those of a nested ensemble after its part. -/
def partLines (coloured : Bool) (width depth : Nat) : List PartReport → List String
  | [] => []
  | p :: ps =>
    partLine coloured width depth p :: nestedLines coloured depth p ++
      partLines coloured width depth ps

/-- The lines of the ensemble that a part at the depth `depth` is, if it is one. -/
def nestedLines (coloured : Bool) (depth : Nat) : PartReport → List String
  | .mk _ _ _ (.ensemble report) => ensembleLines coloured (depth + 2) report
  | _ => []

end

/-- The lines of the listing of one top-level ensemble. -/
def sectionLines (coloured : Bool) : EnsembleReport → List String
  | .mk path id home parts =>
    "" :: paint coloured .heading ("━━━ " ++ path ++ " ━━━") ::
      ensembleLines coloured 1 (.mk path id home parts)

/-- The lines of the listing. -/
def lines (coloured : Bool) (reports : List EnsembleReport) : List String :=
  ["", paint coloured .title ("⚙  Ensembles (" ++ reports.length.repr ++ ")")] ++
    (match reports with
      | [] => [paint coloured .label "  No ensembles defined"]
      | _ => reports.flatMap (sectionLines coloured)) ++
    [""]

/-- The listing. -/
def text (coloured : Bool) (reports : List EnsembleReport) : String :=
  .join ((lines coloured reports).map (· ++ "\n"))

end Ensembles.Dump
