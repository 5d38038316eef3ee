import Ensembles.Reading
import Ensembles.SyntaxError
import Ensembles.Text.Alphanumeric
import Ensembles.Word

/-!
# Reading words

A word in braces is literal up to the brace that closes it; a word in quotes and a
bare word are read atom by atom. `atom_of`, `read_of` and `readAll_of` say that a
reading splits the text in two and drops nothing of it, `atom_source_ne_nil` and
`read_source_ne_nil` that where an atom or a word can start some text is read. So
reading ends on every input.
-/

namespace Ensembles.Word

/-- A split of a text with the character `c` put in front. -/
def push (c : Char) (r : List Char × List Char) : List Char × List Char := (c :: r.1, r.2)

/-! ## Enclosed text -/

/-- The text up to the brace that closes `depth` further braces and this one, and the
text after that brace. A backslash protects the character after it. -/
def braced : Nat → List Char → Option (List Char × List Char)
  | _, [] => none
  | depth, '\\' :: c :: cs => (braced depth cs).map (push '\\' ∘ push c)
  | depth, '{' :: cs => (braced (depth + 1) cs).map (push '{')
  | 0, '}' :: cs => some ([], cs)
  | depth + 1, '}' :: cs => (braced depth cs).map (push '}')
  | depth, c :: cs => (braced depth cs).map (push c)

/-- The text up to the bracket that closes `depth` further brackets and this one, and
the text after that bracket. Brackets inside braces do not count; `braces` is the
number of open braces. -/
def bracketed : Nat → Nat → List Char → Option (List Char × List Char)
  | _, _, [] => none
  | depth, braces, '\\' :: c :: cs => (bracketed depth braces cs).map (push '\\' ∘ push c)
  | depth, braces, '{' :: cs => (bracketed depth (braces + 1) cs).map (push '{')
  | depth, braces, '}' :: cs => (bracketed depth (braces - 1) cs).map (push '}')
  | depth, 0, '[' :: cs => (bracketed (depth + 1) 0 cs).map (push '[')
  | 0, 0, ']' :: cs => some ([], cs)
  | depth + 1, 0, ']' :: cs => (bracketed depth 0 cs).map (push ']')
  | depth, braces, c :: cs => (bracketed depth braces cs).map (push c)

/-- The text up to the next closing brace, and the text after it. -/
def bracedName : List Char → Option (List Char × List Char)
  | [] => none
  | '}' :: cs => some ([], cs)
  | c :: cs => (bracedName cs).map (push c)

/-- The variable name at the start of the text, made of letters, digits, underscores
and `::`, and the text after it. -/
def bareName : List Char → List Char × List Char
  | [] => ([], [])
  | ':' :: ':' :: cs => push ':' (push ':' (bareName cs))
  | c :: cs => if Text.isAlphanumeric c || c == '_' then push c (bareName cs) else ([], c :: cs)

theorem braced_append {depth : Nat} {cs t rest : List Char}
    (h : braced depth cs = some (t, rest)) : t ++ '}' :: rest = cs := by
  fun_induction braced depth cs generalizing t rest with
  | case1 => simp at h
  | case4 => cases h; rfl
  | case2 _ _ _ ih | case3 _ _ ih | case5 _ _ ih | case6 _ _ _ _ _ _ _ ih =>
    obtain ⟨⟨u, r⟩, hr, he⟩ := Option.map_eq_some_iff.1 h
    cases he
    rw [← ih hr]; rfl

theorem bracketed_append {depth braces : Nat} {cs t rest : List Char}
    (h : bracketed depth braces cs = some (t, rest)) : t ++ ']' :: rest = cs := by
  fun_induction bracketed depth braces cs generalizing t rest with
  | case1 => simp at h
  | case6 => cases h; rfl
  | case2 _ _ _ _ ih | case3 _ _ _ ih | case4 _ _ _ ih | case5 _ _ ih | case7 _ _ ih
  | case8 _ _ _ _ _ _ _ _ _ _ ih =>
    obtain ⟨⟨u, r⟩, hr, he⟩ := Option.map_eq_some_iff.1 h
    cases he
    rw [← ih hr]; rfl

theorem bracedName_append {cs t rest : List Char} (h : bracedName cs = some (t, rest)) :
    t ++ '}' :: rest = cs := by
  fun_induction bracedName cs generalizing t rest with
  | case1 => simp at h
  | case2 => cases h; rfl
  | case3 _ _ _ ih =>
    obtain ⟨⟨u, r⟩, hr, he⟩ := Option.map_eq_some_iff.1 h
    cases he
    rw [← ih hr]; rfl

theorem bareName_append (cs : List Char) : (bareName cs).1 ++ (bareName cs).2 = cs := by
  fun_induction bareName cs with
  | case1 | case4 => rfl
  | case2 _ ih | case3 _ _ _ _ ih => simp only [push, List.cons_append, ih]

/-! ## Atoms -/

/-- A space or a tab. -/
def isIndent (c : Char) : Bool := c == ' ' || c == '\t'

/-- What follows a backslash that escapes. A backslash before a newline stands, with
the spaces and tabs after the newline, for one space. -/
def escaped : List Char → Reading (List Atom)
  | [] => ⟨[.char '\\'], [], []⟩
  | 'n' :: cs => ⟨[.char '\n'], ['n'], cs⟩
  | 't' :: cs => ⟨[.char '\t'], ['t'], cs⟩
  | 'r' :: cs => ⟨[.char '\r'], ['r'], cs⟩
  | '\n' :: cs => ⟨[.char ' '], '\n' :: cs.takeWhile isIndent, cs.dropWhile isIndent⟩
  | c :: cs => ⟨[.char c], [c], cs⟩

/-- What follows a backslash that stands for itself: it protects one character. -/
def verbatim : List Char → Reading (List Atom)
  | [] => ⟨[.char '\\'], [], []⟩
  | c :: cs => ⟨[.char '\\', .char c], [c], cs⟩

/-- What follows a dollar sign. A dollar sign without a name stands for itself. -/
def variableName : List Char → Except SyntaxError (Reading (List Atom))
  | '{' :: cs =>
    match bracedName cs with
    | none => .error .missingCloseBraceForVariable
    | some (name, rest) => .ok ⟨[.var (.ofList name)], '{' :: (name ++ ['}']), rest⟩
  | cs =>
    match bareName cs with
    | ([], rest) => .ok ⟨[.char '$'], [], rest⟩
    | (name, rest) => .ok ⟨[.var (.ofList name)], name, rest⟩

/-- What follows an opening bracket. -/
def scriptSource (cs : List Char) : Except SyntaxError (Reading (List Atom)) :=
  match bracketed 0 0 cs with
  | none => .error .missingCloseBracket
  | some (source, rest) => .ok ⟨[.script (.ofList source)], source ++ [']'], rest⟩

/-- The atoms that the character `c` and what follows it in the text `cs` make. -/
def atomTail (f : Substitutions) (c : Char) (cs : List Char) :
    Except SyntaxError (Reading (List Atom)) :=
  if c = '\\' then .ok (if f.ofBackslashes then escaped cs else verbatim cs)
  else if c = '$' && f.ofVariables then variableName cs
  else if c = '[' && f.ofCommands then scriptSource cs
  else .ok ⟨[.char c], [], cs⟩

/-- The atoms at the start of the text `c :: cs`. -/
def atom (f : Substitutions) (c : Char) (cs : List Char) :
    Except SyntaxError (Reading (List Atom)) :=
  (atomTail f c cs).map (·.after [c])

theorem escaped_of (cs : List Char) : (escaped cs).Of cs := by
  fun_cases escaped cs with
  | case5 cs => exact congrArg _ List.takeWhile_append_dropWhile
  | case1 | case2 | case3 | case4 | case6 => rfl

theorem verbatim_of (cs : List Char) : (verbatim cs).Of cs := by
  cases cs <;> rfl

theorem variableName_of {cs : List Char} {r : Reading (List Atom)}
    (h : variableName cs = .ok r) : r.Of cs := by
  fun_cases variableName cs with
  | case1 cs hn => simp [variableName, hn] at h
  | case2 cs name rest hn =>
    simp only [variableName, hn, Except.ok.injEq] at h
    simp [← h, Reading.Of, ← bracedName_append hn]
  | case3 cs hb rest hn =>
    have hc := bareName_append cs
    rw [variableName.eq_2 cs hb, hn] at h
    cases h
    rwa [hn] at hc
  | case4 cs hb name rest hne hn =>
    have hc := bareName_append cs
    rw [variableName.eq_2 cs hb, hn] at h
    cases name with
    | nil => exact absurd rfl hne
    | cons c name =>
      cases h
      rwa [hn] at hc

theorem scriptSource_of {cs : List Char} {r : Reading (List Atom)}
    (h : scriptSource cs = .ok r) : r.Of cs := by
  unfold scriptSource at h
  split at h
  · simp at h
  · rename_i source rest hb
    simp only [Except.ok.injEq] at h
    simp [← h, Reading.Of, ← bracketed_append hb]

theorem atomTail_of {f : Substitutions} {c : Char} {cs : List Char} {r : Reading (List Atom)}
    (h : atomTail f c cs = .ok r) : r.Of cs := by
  unfold atomTail at h
  split at h
  · cases h
    split
    · exact escaped_of cs
    · exact verbatim_of cs
  split at h
  · exact variableName_of h
  split at h
  · exact scriptSource_of h
  · cases h; rfl

theorem atom_of {f : Substitutions} {c : Char} {cs : List Char} {r : Reading (List Atom)}
    (h : atom f c cs = .ok r) : r.Of (c :: cs) := by
  unfold atom at h
  cases ht : atomTail f c cs with
  | error e => rw [ht] at h; cases h
  | ok t =>
    rw [ht] at h
    cases h
    exact (atomTail_of ht).after [c]

theorem atom_source_ne_nil {f : Substitutions} {c : Char} {cs : List Char}
    {r : Reading (List Atom)} (h : atom f c cs = .ok r) : r.source ≠ [] := by
  unfold atom at h
  cases ht : atomTail f c cs with
  | error e => rw [ht] at h; cases h
  | ok t =>
    rw [ht] at h
    cases h
    exact List.cons_ne_nil _ _

/-! ## Words -/

/-- The atoms of the text up to the first place where `stop` holds, or to its end. -/
def atomsUntil (f : Substitutions) (stop : List Char → Bool) :
    List Char → Except SyntaxError (Reading (List Atom))
  | [] => .ok ⟨[], [], []⟩
  | c :: cs =>
    if stop (c :: cs) then .ok ⟨[], [], c :: cs⟩
    else
      match _h : atom f c cs with
      | .error e => .error e
      | .ok r => (atomsUntil f stop r.rest).map (r.andThen (· ++ ·))
termination_by cs => cs.length
decreasing_by exact (atom_of _h).length_rest_lt (atom_source_ne_nil _h)

/-- Whether a quote stands at the start of the text. -/
def atQuote : List Char → Bool
  | '"' :: _ => true
  | _ => false

/-- The reading `r`, if the word ends after it, and `e` otherwise. -/
def ending (d : Dialect) (e : SyntaxError) (r : Reading Word) :
    Except SyntaxError (Reading Word) :=
  if d.endsWord r.rest then .ok r else .error e

/-- The word at the start of the text. -/
def read (d : Dialect) (f : Substitutions) :
    List Char → Except SyntaxError (Reading Word)
  | '{' :: cs =>
    match braced 0 cs with
    | none => .error .missingCloseBrace
    | some (t, rest) =>
      ending d (.extraAfterBrace d) ⟨ofText (.ofList t), '{' :: (t ++ ['}']), rest⟩
  | '"' :: cs =>
    match atomsUntil f atQuote cs with
    | .error e => .error e
    | .ok ⟨_, _, []⟩ => .error .missingCloseQuote
    | .ok ⟨as, source, q :: rest⟩ =>
      ending d (.extraAfterQuote d) ⟨ofQuoted as, '"' :: (source ++ [q]), rest⟩
  | cs => (atomsUntil f d.endsWord cs).map (·.map ofAtoms)

theorem atomsUntil_of {f : Substitutions} {stop : List Char → Bool} {cs : List Char}
    {r : Reading (List Atom)} (h : atomsUntil f stop cs = .ok r) : r.Of cs := by
  fun_induction atomsUntil f stop cs generalizing r with
  | case1 | case2 => cases h; rfl
  | case3 => cases h
  | case4 c cs _ r' ha ih =>
    cases ht : atomsUntil f stop r'.rest with
    | error e => rw [ht] at h; cases h
    | ok t =>
      rw [ht] at h
      cases h
      exact (atom_of ha).andThen (ih ht) _

/-- A character where reading does not stop is read. -/
theorem atomsUntil_source_ne_nil {f : Substitutions} {stop : List Char → Bool} {cs : List Char}
    {r : Reading (List Atom)} (hs : stop cs = false) (hn : cs ≠ [])
    (h : atomsUntil f stop cs = .ok r) : r.source ≠ [] := by
  fun_cases atomsUntil f stop cs with
  | case1 => exact absurd rfl hn
  | case2 c cs hc => rw [hs] at hc; cases hc
  | case3 c cs hc e ha => simp [atomsUntil, hs] at h; split at h <;> simp_all
  | case4 c cs hc r' ha =>
    rw [atomsUntil] at h
    simp only [hs, Bool.false_eq_true, if_false] at h
    split at h
    · cases h
    · rename_i r'' ha'
      cases ht : atomsUntil f stop r''.rest with
      | error e => rw [ht] at h; cases h
      | ok t =>
        rw [ht] at h
        cases h
        exact List.append_ne_nil_of_left_ne_nil (atom_source_ne_nil ha') _

theorem ending_eq_ok {d : Dialect} {e : SyntaxError} {r r' : Reading Word}
    (h : ending d e r = .ok r') : r' = r := by
  unfold ending at h
  split at h
  · cases h; rfl
  · cases h

theorem read_of {d : Dialect} {f : Substitutions} {cs : List Char} {r : Reading Word}
    (h : read d f cs = .ok r) : r.Of cs := by
  fun_cases read d f cs with
  | case1 cs hb => simp [read, hb] at h
  | case2 cs t rest hb =>
    simp only [read, hb] at h
    simp [ending_eq_ok h, Reading.Of, ← braced_append hb]
  | case3 cs e ha => simp [read, ha] at h
  | case4 cs as source ha => simp [read, ha] at h
  | case5 cs as source q rest ha =>
    simp only [read, ha] at h
    have hc : source ++ q :: rest = cs := atomsUntil_of ha
    simp [ending_eq_ok h, Reading.Of, ← hc]
  | case6 cs hb hq =>
    rw [read.eq_3 d f cs hb hq] at h
    cases ha : atomsUntil f d.endsWord cs with
    | error e => rw [ha] at h; cases h
    | ok t =>
      rw [ha] at h
      cases h
      exact (atomsUntil_of ha).map _

theorem read_source_ne_nil {d : Dialect} {f : Substitutions} {cs : List Char} {r : Reading Word}
    (hs : d.endsWord cs = false) (h : read d f cs = .ok r) : r.source ≠ [] := by
  fun_cases read d f cs with
  | case1 cs hb => simp [read, hb] at h
  | case2 cs t rest hb =>
    simp only [read, hb] at h
    simp [ending_eq_ok h]
  | case3 cs e ha => simp [read, ha] at h
  | case4 cs as source ha => simp [read, ha] at h
  | case5 cs as source q rest ha =>
    simp only [read, ha] at h
    simp [ending_eq_ok h]
  | case6 cs hb hq =>
    rw [read.eq_3 d f cs hb hq] at h
    cases ha : atomsUntil f d.endsWord cs with
    | error e => rw [ha] at h; cases h
    | ok t =>
      rw [ha] at h
      cases h
      refine atomsUntil_source_ne_nil hs ?_ ha
      rintro rfl
      simp [Dialect.endsWord] at hs

theorem length_rest_lt {d : Dialect} {f : Substitutions} {cs : List Char} {r : Reading Word}
    (hs : d.endsWord (d.splitSpace cs).2 = false) (h : read d f (d.splitSpace cs).2 = .ok r) :
    r.rest.length < cs.length := by
  have hr := (read_of h).length_rest_lt (read_source_ne_nil hs h)
  have hc := congrArg List.length (d.splitSpace_append cs)
  rw [List.length_append] at hc
  omega

/-- The words of the text up to its end or a separator. -/
def readAll (d : Dialect) (f : Substitutions) (cs : List Char) :
    Except SyntaxError (Reading (List Word)) :=
  if _hs : d.endsWord (d.splitSpace cs).2 then .ok ⟨[], (d.splitSpace cs).1, (d.splitSpace cs).2⟩
  else
    match _h : read d f (d.splitSpace cs).2 with
    | .error e => .error e
    | .ok r =>
      (readAll d f r.rest).map fun t => (r.andThen List.cons t).after (d.splitSpace cs).1
termination_by cs.length
decreasing_by exact length_rest_lt (Bool.eq_false_iff.2 _hs) _h

theorem readAll_of {d : Dialect} {f : Substitutions} {cs : List Char} {r : Reading (List Word)}
    (h : readAll d f cs = .ok r) : r.Of cs := by
  fun_induction readAll d f cs generalizing r with
  | case1 cs => cases h; exact d.splitSpace_append cs
  | case2 => cases h
  | case3 cs _ r' hr ih =>
    cases ht : readAll d f r'.rest with
    | error e => rw [ht] at h; cases h
    | ok t =>
      rw [ht] at h
      cases h
      have := ((read_of hr).andThen (ih ht) List.cons).after (d.splitSpace cs).1
      rwa [d.splitSpace_append] at this

/-- Where a word can start, one is read. -/
theorem readAll_source_ne_nil {d : Dialect} {f : Substitutions} {cs : List Char}
    {r : Reading (List Word)} (hs : d.endsWord cs = false) (h : readAll d f cs = .ok r) :
    r.source ≠ [] := by
  rw [readAll, d.splitSpace_of_not_endsWord hs] at h
  simp only [hs, Bool.false_eq_true, dite_false] at h
  split at h
  · cases h
  · rename_i r' hr
    cases ht : readAll d f r'.rest with
    | error e => rw [ht] at h; cases h
    | ok t =>
      rw [ht] at h
      cases h
      exact List.append_ne_nil_of_left_ne_nil (read_source_ne_nil hs hr) _

end Ensembles.Word
