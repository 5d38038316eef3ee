import Ensembles.Bisection

/-!
# Tables of parts

The parts of an ensemble stand in an array sorted by name, so that a full name and an
abbreviation are both found by halving. Each part keeps the least number of characters
that tell it from its siblings. In a sorted table the sibling that shares most with a
part stands next to it, so an insertion or a removal only concerns the parts around
the place where it happens, and `PartTable.refreshAround` looks at no others.
-/

namespace Ensembles

/-- A part of an ensemble; `α` is what runs when the part is selected. -/
structure Part (α : Type) where
  name : String
  /-- The number of characters that select the part. -/
  minChars : Nat
  /-- The summary of the arguments, if there is one. -/
  usage : Option String
  handler : α

/-- The parts of an ensemble in the order of their names. -/
structure PartTable (α : Type) where
  parts : Array (Part α)

/-- What an abbreviation stands for. -/
inductive Lookup (α : Type) where
  | found (p : Part α)
  /-- The parts whose names start with the abbreviation, in table order. -/
  | ambiguous (ps : List (Part α))
  | absent

/-- The length of the longest common start of two texts. -/
def sharedLength : List Char → List Char → Nat
  | a :: as, b :: bs => if a = b then sharedLength as bs + 1 else 0
  | _, _ => 0

/-- The place of a name relative to the names that start with `text`. -/
def startOrder : (name text : List Char) → Ordering
  | _, [] => .eq
  | [], _ :: _ => .lt
  | a :: as, b :: bs => if a < b then .lt else if b < a then .gt else startOrder as bs

/-- Whether the name of the part starts with `text`. -/
def Part.startsWith {α : Type} (p : Part α) (text : String) : Bool :=
  text.toList.isPrefixOf p.name.toList

namespace PartTable

variable {α : Type}

/-- The table without parts. -/
def empty : PartTable α := ⟨#[]⟩

/-- The parts in table order. -/
def toList (t : PartTable α) : List (Part α) := t.parts.toList

/-- Where the part `name` stands, or where it would. -/
def place (t : PartTable α) (name : String) : Landing :=
  bisect (fun p => compare p.name name) t.parts

/-- The part of exactly the name `name`. -/
def find? (t : PartTable α) (name : String) : Option (Part α) :=
  match t.place name with
  | .found i => t.parts[i]?
  | .gap _ => none

/-! ## Abbreviations -/

/-- The characters that tell the name of a part from the names next to it. -/
def charsNeeded (name : String) (next : List String) : Nat :=
  min name.length
    (next.foldl (fun n other => max n (sharedLength name.toList other.toList + 1)) 1)

/-- The names on both sides of the place `i`. -/
def namesNextTo (parts : Array (Part α)) (i : Nat) : List String :=
  ((if i = 0 then none else parts[i - 1]?).toList ++ parts[i + 1]?.toList).map Part.name

/-- The parts with the abbreviation of the one at `i` computed anew. -/
def refreshAt (parts : Array (Part α)) (i : Nat) : Array (Part α) :=
  match parts[i]? with
  | none => parts
  | some p =>
    parts.setIfInBounds i { p with minChars := charsNeeded p.name (namesNextTo parts i) }

/-- The parts with the abbreviations at `i` and next to it computed anew. -/
def refreshAround (parts : Array (Part α)) (i : Nat) : Array (Part α) :=
  refreshAt (refreshAt (refreshAt parts (i - 1)) i) (i + 1)

/-! ## Changes -/

/-- The table with a new part, or `none` if there is a part of that name. -/
def insert? (t : PartTable α) (name : String) (usage : Option String) (handler : α) :
    Option (PartTable α) :=
  match t.place name with
  | .found _ => none
  | .gap i => some ⟨refreshAround (t.parts.insertIdxIfInBounds i ⟨name, 0, usage, handler⟩) i⟩

/-- The table without the part at `i`. -/
def eraseAt (t : PartTable α) (i : Nat) : PartTable α :=
  ⟨refreshAround (t.parts.eraseIdxIfInBounds i) i⟩

/-- The table without the part of the name `name`. -/
def erase (t : PartTable α) (name : String) : PartTable α :=
  match t.place name with
  | .found i => t.eraseAt i
  | .gap _ => t

/-- The first part. -/
def first? (t : PartTable α) : Option (Part α) := t.parts[0]?

/-- The table without its first part. -/
def eraseFirst (t : PartTable α) : PartTable α := t.eraseAt 0

/-! ## Sizes -/

/-- The number of parts. -/
def size (t : PartTable α) : Nat := t.parts.size

theorem size_refreshAt (parts : Array (Part α)) (i : Nat) :
    (refreshAt parts i).size = parts.size := by
  unfold refreshAt
  split
  · rfl
  · exact Array.size_setIfInBounds

theorem size_eraseAt (t : PartTable α) (i : Nat) :
    (t.eraseAt i).size = t.size - if i < t.parts.size then 1 else 0 := by
  rw [size, size, eraseAt, refreshAround, size_refreshAt, size_refreshAt, size_refreshAt,
    Array.eraseIdxIfInBounds]
  by_cases hi : i < t.parts.size
  · rw [dif_pos hi, if_pos hi, Array.size_eraseIdx]
  · rw [dif_neg hi, if_neg hi, Nat.sub_zero]

theorem size_erase_le (t : PartTable α) (name : String) : (t.erase name).size ≤ t.size := by
  unfold erase
  split
  · rw [size_eraseAt]
    exact Nat.sub_le _ _
  · exact Nat.le_refl _

/-- To take the first part out makes the table smaller. -/
theorem size_eraseFirst_lt {t : PartTable α} {p : Part α} (h : t.first? = some p) :
    t.eraseFirst.size < t.size := by
  have hpos : 0 < t.parts.size := (Array.getElem?_eq_some_iff.1 h).1
  rw [eraseFirst, size_eraseAt, if_pos hpos]
  exact Nat.sub_one_lt_of_lt hpos

/-! ## Resolving abbreviations -/

/-- The first of the parts up to `i` that start with `text`, if the part at `i` does. -/
def firstMatch (t : PartTable α) (text : String) : Nat → Nat
  | 0 => 0
  | i + 1 =>
    match t.parts[i]? with
    | some p => if p.startsWith text then firstMatch t text i else i + 1
    | none => i + 1

/-- What the text stands for, seen from the part at `i`, whose name starts with it. -/
def resolveAt (t : PartTable α) (text : String) (i : Nat) : Lookup α :=
  match t.parts[i]? with
  | none => .absent
  | some p =>
    if p.minChars ≤ text.length then .found p
    else
      match t.parts[t.firstMatch text i]? with
      | none => .absent
      | some q =>
        if q.minChars ≤ text.length then .found q
        else .ambiguous ((t.toList.drop (t.firstMatch text i)).takeWhile (·.startsWith text))

/-- What `text` stands for: a full name, or an abbreviation that only one name starts
with. The empty text stands for nothing. -/
def resolve (t : PartTable α) (text : String) : Lookup α :=
  if text = "" then .absent
  else
    match bisect (fun p => startOrder p.name.toList text.toList) t.parts with
    | .gap _ => .absent
    | .found i => t.resolveAt text i

end PartTable

end Ensembles
