import Ensembles.Proofs.LocalCommands

/-!
# Reading makes progress

Reading is made of loops that know nothing of how much text is left: each of them goes on until
something in the text tells it to stop. That they stop nonetheless is because no turn of a loop
stays where it is (`reading_makes_progress`). A word is only read where one can start, so it is
read from some text; the two loops that read words rely for this on `Dialect.splitSpace` stopping
exactly where a word starts or where they themselves leave off.

`Turn` is what one turn of a loop comes to. The turns are not recursive; `ReadingLoop` says that
they advance and that the turns one after another make what the recursive definition of the same
loop makes, in no more turns than there are characters, and one to leave it.
-/

namespace Ensembles

open Word (atom atomsUntil atQuote braced bracketed bracedName bareName isIndent push readAll)

/-! ## Loops over a text -/

/-- What one turn of a loop over a text comes to, where `σ` is what the loop keeps from turn to turn
and `ω` what it makes. -/
inductive Turn (σ ω : Type) where
  | leave (outcome : ω)
  /-- The text `read` is read, and the loop goes on in front of `rest`; `collect` makes its outcome
  from that of the turns to come. -/
  | goOn (state : σ) (read rest : List Char) (collect : ω → ω)

namespace Turn

variable {σ ω α β : Type}

/-- What the turn and those after it make, if those after it make what `value` says. -/
def outcome (value : σ → List Char → ω) : Turn σ ω → ω
  | leave w => w
  | goOn s _ rest collect => collect (value s rest)

/-- A turn on the text `cs` leaves the loop, or reads at least one character of it. -/
def Advances (cs : List Char) : Turn σ ω → Prop
  | leave _ => True
  | goOn _ read rest _ => read ≠ [] ∧ read ++ rest = cs

/-- A turn of a loop that splits a text in two: what is read is put in front. -/
def pass (state : σ) (read rest : List Char) : Turn σ (List Char × List Char) :=
  goOn state read rest fun r => (read ++ r.1, r.2)

/-- The same for a loop that has to find an end. -/
def seek (state : σ) (read rest : List Char) : Turn σ (Option (List Char × List Char)) :=
  goOn state read rest (Option.map fun r => (read ++ r.1, r.2))

/-- The turn that `go` makes of a reading, which may fail. -/
def attempt (x : Except SyntaxError α) (go : α → Turn σ (Except SyntaxError β)) :
    Turn σ (Except SyntaxError β) :=
  match x with
  | .error e => leave (.error e)
  | .ok r => go r

@[simp]
theorem outcome_leave (value : σ → List Char → ω) (w : ω) : (leave w).outcome value = w := rfl

@[simp]
theorem outcome_pass (value : σ → List Char → List Char × List Char) (s : σ)
    (read rest : List Char) :
    (pass s read rest).outcome value = (read ++ (value s rest).1, (value s rest).2) := rfl

theorem outcome_attempt (value : σ → List Char → Except SyntaxError β) (x : Except SyntaxError α)
    (go : α → Turn σ (Except SyntaxError β)) :
    (attempt x go).outcome value = x.bind fun r => (go r).outcome value := by
  cases x <;> rfl

theorem advances_attempt {cs : List Char} {x : Except SyntaxError α}
    {go : α → Turn σ (Except SyntaxError β)} (h : ∀ r, x = .ok r → (go r).Advances cs) :
    (attempt x go).Advances cs := by
  cases x with
  | error e => trivial
  | ok r => exact h r rfl

end Turn

section Loops

variable {σ ω : Type} {turn : σ → List Char → Turn σ ω} {value : σ → List Char → ω}
  {left : ω → Option (List Char)}

/-- From the state `s` and the text `cs` on, turns that read the texts `reads` leave the loop with
the outcome `w`. -/
inductive Turns (turn : σ → List Char → Turn σ ω) : σ → List Char → List (List Char) → ω → Prop
  | leave {s cs w} : turn s cs = .leave w → Turns turn s cs [] w
  | goOn {s cs s' read rest collect reads w} : turn s cs = .goOn s' read rest collect →
      Turns turn s' rest reads w → Turns turn s cs (read :: reads) (collect w)

/-- The loop ends with the outcome `w`: its turns read parts of the text `cs` one after another, no
more of them than it has characters, and then one leaves the loop. -/
def LeavesWith (turn : σ → List Char → Turn σ ω) (s : σ) (cs : List Char) (w : ω) : Prop :=
  ∃ reads, Turns turn s cs reads w ∧ reads.flatten <+: cs ∧ reads.length ≤ cs.length

/-- `turn` is one turn of a loop that makes `value` of a state and a text; `left` is the text that
an outcome leaves, if it leaves one. -/
structure ReadingLoop (turn : σ → List Char → Turn σ ω) (value : σ → List Char → ω)
    (left : ω → Option (List Char)) : Prop where
  /-- Each turn reads at least one character or leaves the loop. -/
  advances (s : σ) (cs : List Char) : (turn s cs).Advances cs
  /-- The turns come to an end, with what the loop makes. -/
  ends (s : σ) (cs : List Char) : LeavesWith turn s cs (value s cs)
  /-- No text is left but the end of the text that there was. -/
  within (s : σ) (cs : List Char) : ∀ rest ∈ left (value s cs), rest <:+ cs

/-- A loop whose turns advance comes to an end. -/
theorem leavesWith_of_unroll (ha : ∀ s cs, (turn s cs).Advances cs)
    (hv : ∀ s cs, value s cs = (turn s cs).outcome value) (s : σ) (cs : List Char) :
    LeavesWith turn s cs (value s cs) := by
  induction hk : cs.length using Nat.strongRecOn generalizing s cs with
  | _ k ih =>
    subst hk
    have hadv := ha s cs
    rw [hv s cs]
    cases ht : turn s cs with
    | leave w => exact ⟨[], .leave ht, List.nil_prefix, Nat.zero_le _⟩
    | goOn s' read rest collect =>
      rw [ht] at hadv
      obtain ⟨hread, rfl⟩ := hadv
      have hpos := List.length_pos_iff.2 hread
      have hlen : (read ++ rest).length = read.length + rest.length := List.length_append
      obtain ⟨reads, hturns, hpre, hcount⟩ := ih rest.length (by omega) s' rest rfl
      refine ⟨read :: reads, .goOn ht hturns, ?_, ?_⟩
      · exact (List.prefix_append_right_inj read).2 hpre
      · rw [List.length_cons]
        omega

theorem ReadingLoop.of_unroll (ha : ∀ s cs, (turn s cs).Advances cs)
    (hv : ∀ s cs, value s cs = (turn s cs).outcome value)
    (hw : ∀ s cs, ∀ rest ∈ left (value s cs), rest <:+ cs) : ReadingLoop turn value left :=
  ⟨ha, leavesWith_of_unroll ha hv, hw⟩

end Loops

/-- What a split of a text leaves. -/
def leftOfSplit (r : List Char × List Char) : Option (List Char) := some r.2

/-- What text in braces or brackets leaves, if it has an end. -/
def leftOfEnclosed (r : Option (List Char × List Char)) : Option (List Char) := r.map Prod.snd

/-- What a reading leaves. -/
def leftOfReading {α : Type} (x : Except SyntaxError (Reading α)) : Option (List Char) :=
  x.toOption.map Reading.rest

section Left

variable {cs : List Char}

theorem suffix_of_leftOfSplit {r : List Char × List Char} (h : r.1 ++ r.2 = cs) :
    ∀ rest ∈ leftOfSplit r, rest <:+ cs := by
  rintro rest ⟨⟩
  exact ⟨_, h⟩

theorem suffix_of_leftOfEnclosed {x : Option (List Char × List Char)} {close : Char}
    (h : ∀ {t rest}, x = some (t, rest) → t ++ close :: rest = cs) :
    ∀ rest ∈ leftOfEnclosed x, rest <:+ cs := by
  intro rest hrest
  obtain ⟨⟨t, rest'⟩, hx, rfl⟩ := Option.map_eq_some_iff.1 hrest
  exact ⟨t ++ [close], by rw [List.append_assoc]; exact h hx⟩

theorem suffix_of_leftOfReading {α : Type} {x : Except SyntaxError (Reading α)}
    (h : ∀ {r}, x = .ok r → r.Of cs) : ∀ rest ∈ leftOfReading x, rest <:+ cs := by
  cases x with
  | error e => exact nofun
  | ok r =>
    rintro rest ⟨⟩
    exact ⟨_, h rfl⟩

end Left

/-! ## Space and comments -/

/-- The loop over the spaces and tabs behind a backslash and a newline. -/
def Word.indentTurn (_ : Unit) : List Char → Turn Unit (List Char × List Char)
  | [] => .leave ([], [])
  | c :: cs => if isIndent c then .pass () [c] cs else .leave ([], c :: cs)

/-- The loop over the space between words. -/
def Dialect.spaceTurn (d : Dialect) (_ : Unit) : List Char → Turn Unit (List Char × List Char)
  | [] => .leave ([], [])
  | '\\' :: '\n' :: cs =>
    .pass () ('\\' :: '\n' :: cs.takeWhile isIndent) (cs.dropWhile isIndent)
  | c :: cs => if d.isSpace c then .pass () [c] cs else .leave ([], c :: cs)

theorem Word.indent_loop :
    ReadingLoop Word.indentTurn (fun _ cs => (cs.takeWhile isIndent, cs.dropWhile isIndent))
      leftOfSplit := by
  refine .of_unroll (fun s cs => ?_) (fun s cs => ?_) fun _ _ =>
    suffix_of_leftOfSplit List.takeWhile_append_dropWhile
  · fun_cases Word.indentTurn s cs with
    | case2 c cs => exact ⟨List.cons_ne_nil _ _, rfl⟩
    | case1 | case3 => trivial
  · fun_cases Word.indentTurn s cs with
    | case1 => rfl
    | case2 c cs hc => rw [List.takeWhile_cons_of_pos hc, List.dropWhile_cons_of_pos hc]; rfl
    | case3 c cs hc => rw [List.takeWhile_cons_of_neg hc, List.dropWhile_cons_of_neg hc]; rfl

namespace Dialect

theorem isSpace_of_isIndent (d : Dialect) {c : Char} (h : isIndent c = true) :
    d.isSpace c = true := by
  rw [isIndent, Bool.or_eq_true, beq_iff_eq, beq_iff_eq] at h
  obtain rfl | rfl := h <;> cases d <;> decide

/-- Spaces and tabs are space in every dialect. -/
theorem splitSpace_indent (d : Dialect) (cs : List Char) :
    d.splitSpace cs = (cs.takeWhile isIndent ++ (d.splitSpace (cs.dropWhile isIndent)).1,
      (d.splitSpace (cs.dropWhile isIndent)).2) := by
  induction cs with
  | nil => rfl
  | cons c cs ih =>
    by_cases hc : isIndent c = true
    · rw [List.takeWhile_cons_of_pos hc, List.dropWhile_cons_of_pos hc,
        splitSpace_of_isSpace (d.isSpace_of_isIndent hc), ih]
      rfl
    · rw [List.takeWhile_cons_of_neg hc, List.dropWhile_cons_of_neg hc]
      rfl

/-- Behind the space, a word can start everywhere but at a separator. -/
theorem endsWord_of_splitSpace {d : Dialect} {cs space rest : List Char} {c : Char}
    (hs : d.splitSpace cs = (space, c :: rest)) : d.endsWord (c :: rest) = d.isSeparator c := by
  refine Bool.eq_iff_iff.2 ⟨fun h => ?_, fun h => ?_⟩
  · have hword : d.endsWord (d.splitSpace cs).2 = true := by rwa [hs]
    rcases isSeparator_of_endsWord hword with hr | ⟨c', t, hr, hc'⟩
    · rw [hs] at hr
      cases hr
    · rw [hs] at hr
      cases hr
      exact hc'
  · refine (endsWord_and_splitSpace_of_isSeparator fun c' hc' => ?_).1
    cases hc'
    exact h

theorem space_loop (d : Dialect) :
    ReadingLoop d.spaceTurn (fun _ => d.splitSpace) leftOfSplit := by
  refine .of_unroll (fun s cs => ?_) (fun s cs => ?_) fun _ cs =>
    suffix_of_leftOfSplit (d.splitSpace_append cs)
  · fun_cases spaceTurn d s cs with
    | case2 cs =>
      refine ⟨List.cons_ne_nil _ _, ?_⟩
      rw [List.cons_append, List.cons_append, List.takeWhile_append_dropWhile]
    | case3 c cs => exact ⟨List.cons_ne_nil _ _, rfl⟩
    | case1 | case4 => trivial
  · fun_cases spaceTurn d s cs with
    | case1 => rfl
    | case2 cs => rw [splitSpace.eq_2, splitSpace_indent]; rfl
    | case3 c cs hn hc => rw [splitSpace_of_isSpace hc]; rfl
    | case4 c cs hn hc => rw [splitSpace.eq_3 d c cs hn, if_neg hc]; rfl

end Dialect

namespace Script

variable {cs : List Char} {c : Char}

/-- The text of a comment up to its newline, and the text from the newline on. -/
def splitComment : List Char → List Char × List Char
  | [] => ([], [])
  | '\\' :: c :: cs => push '\\' (push c (splitComment cs))
  | '\n' :: cs => ([], '\n' :: cs)
  | c :: cs => push c (splitComment cs)

/-- The loop over a comment. -/
def commentTurn (_ : Unit) : List Char → Turn Unit (List Char × List Char)
  | [] => .leave ([], [])
  | '\\' :: c :: cs => .pass () ['\\', c] cs
  | '\n' :: cs => .leave ([], '\n' :: cs)
  | c :: cs => .pass () [c] cs

/-- The loop over what stands between commands. -/
def gapTurn (_ : Unit) (cs : List Char) : Turn Unit (List Char × List Char) :=
  match Dialect.script.splitSpace cs with
  | (space, []) => .leave (space, [])
  | (space, c :: rest) =>
    if Dialect.script.isSeparator c then .pass () (space ++ [c]) rest
    else if c = '#' then
      .pass () (space ++ (splitComment (c :: rest)).1) (splitComment (c :: rest)).2
    else .leave (space, c :: rest)

theorem splitComment_append (cs : List Char) :
    (splitComment cs).1 ++ (splitComment cs).2 = cs := by
  fun_induction splitComment cs with
  | case1 | case3 => rfl
  | case2 | case4 =>
    rename_i ih
    simp only [push, List.cons_append, ih]

theorem comment_loop : ReadingLoop commentTurn (fun _ => splitComment) leftOfSplit := by
  refine .of_unroll (fun s cs => ?_) (fun s cs => ?_) fun _ cs =>
    suffix_of_leftOfSplit (splitComment_append cs)
  · fun_cases commentTurn s cs with
    | case2 | case4 => exact ⟨List.cons_ne_nil _ _, rfl⟩
    | case1 | case3 => trivial
  · fun_cases commentTurn s cs with
    | case1 | case2 | case3 => rfl
    | case4 c cs hb hc => rw [splitComment.eq_4 c cs hb hc]; rfl

/-- Inside a comment, the gap between commands is the comment and the gap behind it. -/
theorem splitGap_comment (cs : List Char) :
    splitGap true cs = ((splitComment cs).1 ++ (splitGap false (splitComment cs).2).1,
      (splitGap false (splitComment cs).2).2) := by
  fun_induction splitComment cs with
  | case1 => rfl
  | case2 c cs ih => rw [splitGap.eq_2, if_pos (by rfl), ih]; rfl
  | case3 cs => rfl
  | case4 c cs hb hc ih =>
    have hcomment : (c ≠ '\n' : Bool) = true := decide_eq_true fun h => hc (h ▸ rfl)
    rw [splitGap.eq_3 true c cs fun _ => hb _, if_pos rfl, hcomment, ih]
    rfl

/-- The gap between commands is some space and the gap behind it. -/
theorem splitGap_space (cs : List Char) :
    splitGap false cs =
      ((Dialect.script.splitSpace cs).1 ++ (splitGap false (Dialect.script.splitSpace cs).2).1,
        (splitGap false (Dialect.script.splitSpace cs).2).2) := by
  fun_induction Dialect.splitSpace .script cs with
  | case1 | case4 => rfl
  | case2 cs ih => rw [splitGap.eq_2, if_pos (by rfl), ih]; rfl
  | case3 c cs hn hc ih =>
    have hhash : c ≠ '#' := by rintro rfl; cases hc
    rw [splitGap_cons (ne_backslash_of_isSpace hc), if_neg Bool.false_ne_true, if_neg hhash,
      if_pos (by rw [hc]; rfl), ih]
    rfl

/-- Where a word starts and no comment does, a command starts. -/
theorem splitGap_of_not_endsWord (h : Dialect.script.endsWord cs = false)
    (hc : cs.head? ≠ some '#') : splitGap false cs = ([], cs) := by
  fun_cases splitGap false cs with
  | case1 | case3 | case7 => rfl
  | case2 c cs hn =>
    have hnewline : c = '\n' := of_decide_eq_true hn
    rw [hnewline] at h
    cases h
  | case4 c cs hb hn => cases hn
  | case5 cs => exact absurd rfl hc
  | case6 c cs hb hn hhash hs =>
    rw [Dialect.endsWord.eq_3 _ _ _ fun _ => hb _ _, hs] at h
    cases h

theorem splitGap_of_isSeparator (h : Dialect.script.isSeparator c = true) (cs : List Char) :
    splitGap false (c :: cs) = push c (splitGap false cs) := by
  obtain ⟨-, rfl | rfl⟩ := eq_of_isSeparator h <;> rfl

theorem gap_loop : ReadingLoop gapTurn (fun _ => splitGap false) leftOfSplit := by
  have happend (cs : List Char) := Dialect.script.splitSpace_append cs
  refine .of_unroll (fun s cs => ?_) (fun s cs => ?_) fun _ cs =>
    suffix_of_leftOfSplit (splitGap_append false cs)
  · fun_cases gapTurn s cs with
    | case1 | case4 => trivial
    | case2 space c rest hs hc =>
      refine ⟨by simp, ?_⟩
      rw [← happend cs, hs, List.append_assoc]
      rfl
    | case3 space rest hs hc =>
      refine ⟨by simp [splitComment, push], ?_⟩
      rw [List.append_assoc, splitComment_append, ← happend cs, hs]
  · rw [splitGap_space]
    fun_cases gapTurn s cs with
    | case1 space hs => simp [hs, splitGap]
    | case2 space c rest hs hc => simp [hs, splitGap_of_isSeparator hc, push]
    | case3 space rest hs hc =>
      have hcomment : splitGap false ('#' :: rest) = push '#' (splitGap true rest) := rfl
      simp [hs, hcomment, splitGap_comment, splitComment, push]
    | case4 space c rest hs hc hn =>
      have hends : Dialect.script.endsWord (c :: rest) = false :=
        (Dialect.endsWord_of_splitSpace hs).trans (Bool.eq_false_iff.2 hc)
      simp [hs, splitGap_of_not_endsWord hends fun h => hn (Option.some.inj h)]

end Script

/-! ## Words and their parts -/

namespace Word

variable {d : Dialect} {f : Substitutions}

/-- The loop over a word in braces, behind its first brace. -/
def bracedTurn : Nat → List Char → Turn Nat (Option (List Char × List Char))
  | _, [] => .leave none
  | depth, '\\' :: c :: cs => .seek depth ['\\', c] cs
  | depth, '{' :: cs => .seek (depth + 1) ['{'] cs
  | 0, '}' :: cs => .leave (some ([], cs))
  | depth + 1, '}' :: cs => .seek depth ['}'] cs
  | depth, c :: cs => .seek depth [c] cs

/-- The loop over a script in brackets, behind its first bracket. It keeps the numbers of further
brackets and of braces that are open. -/
def bracketedTurn : Nat → Nat → List Char → Turn (Nat × Nat) (Option (List Char × List Char))
  | _, _, [] => .leave none
  | depth, braces, '\\' :: c :: cs => .seek (depth, braces) ['\\', c] cs
  | depth, braces, '{' :: cs => .seek (depth, braces + 1) ['{'] cs
  | depth, braces, '}' :: cs => .seek (depth, braces - 1) ['}'] cs
  | depth, 0, '[' :: cs => .seek (depth + 1, 0) ['['] cs
  | 0, 0, ']' :: cs => .leave (some ([], cs))
  | depth + 1, 0, ']' :: cs => .seek (depth, 0) [']'] cs
  | depth, braces, c :: cs => .seek (depth, braces) [c] cs

/-- The loop over the name of a variable in braces. -/
def bracedNameTurn (_ : Unit) : List Char → Turn Unit (Option (List Char × List Char))
  | [] => .leave none
  | '}' :: cs => .leave (some ([], cs))
  | c :: cs => .seek () [c] cs

/-- The loop over the name of a variable without braces. -/
def bareNameTurn (_ : Unit) : List Char → Turn Unit (List Char × List Char)
  | [] => .leave ([], [])
  | ':' :: ':' :: cs => .pass () [':', ':'] cs
  | c :: cs =>
    if Text.isAlphanumeric c || c == '_' then .pass () [c] cs else .leave ([], c :: cs)

theorem braced_loop : ReadingLoop bracedTurn braced leftOfEnclosed := by
  refine .of_unroll (fun s cs => ?_) (fun s cs => ?_) fun _ _ =>
    suffix_of_leftOfEnclosed braced_append
  · fun_cases bracedTurn s cs with
    | case1 | case4 => trivial
    | case2 | case3 | case5 | case6 => exact ⟨List.cons_ne_nil _ _, rfl⟩
  · fun_cases bracedTurn s cs with
    | case1 | case2 | case3 | case4 | case5 => rfl
    | case6 _ c cs hb ho hz hs => rw [braced.eq_6 s c cs hb ho hz hs]; rfl

theorem bracketed_loop :
    ReadingLoop (fun s => bracketedTurn s.1 s.2) (fun s => bracketed s.1 s.2) leftOfEnclosed := by
  refine .of_unroll ?_ ?_ (fun _ _ => suffix_of_leftOfEnclosed bracketed_append) <;>
    rintro ⟨depth, braces⟩ cs
  · show (bracketedTurn depth braces cs).Advances cs
    fun_cases bracketedTurn depth braces cs with
    | case1 | case6 => trivial
    | case2 | case3 | case4 | case5 | case7 | case8 => exact ⟨List.cons_ne_nil _ _, rfl⟩
  · show bracketed depth braces cs = (bracketedTurn depth braces cs).outcome _
    fun_cases bracketedTurn depth braces cs with
    | case1 | case2 | case3 | case4 | case5 | case6 | case7 => rfl
    | case8 _ _ c cs hb ho hc hb' hz hs =>
      rw [bracketed.eq_8 depth braces c cs hb ho hc hb' hz hs]
      rfl

theorem bracedName_loop :
    ReadingLoop bracedNameTurn (fun _ => bracedName) leftOfEnclosed := by
  refine .of_unroll (fun s cs => ?_) (fun s cs => ?_) fun _ _ =>
    suffix_of_leftOfEnclosed bracedName_append
  · fun_cases bracedNameTurn s cs with
    | case1 | case2 => trivial
    | case3 => exact ⟨List.cons_ne_nil _ _, rfl⟩
  · fun_cases bracedNameTurn s cs with
    | case1 | case2 => rfl
    | case3 c cs hc => rw [bracedName.eq_3 c cs hc]; rfl

theorem bareName_loop : ReadingLoop bareNameTurn (fun _ => bareName) leftOfSplit := by
  refine .of_unroll (fun s cs => ?_) (fun s cs => ?_) fun _ cs =>
    suffix_of_leftOfSplit (bareName_append cs)
  · fun_cases bareNameTurn s cs with
    | case1 | case4 => trivial
    | case2 | case3 => exact ⟨List.cons_ne_nil _ _, rfl⟩
  · fun_cases bareNameTurn s cs with
    | case1 | case2 => rfl
    | case3 c cs hn hc => rw [bareName.eq_3 c cs hn, if_pos hc]; rfl
    | case4 c cs hn hc => rw [bareName.eq_3 c cs hn, if_neg hc]; rfl

/-- The loop over the characters and substitutions of a word up to where `stop` holds: a quote for
a word in quotes, the end of the word for a bare one. -/
def atomsTurn (f : Substitutions) (stop : List Char → Bool) (_ : Unit) :
    List Char → Turn Unit (Except SyntaxError (Reading (List Atom)))
  | [] => .leave (.ok ⟨[], [], []⟩)
  | c :: cs =>
    if stop (c :: cs) then .leave (.ok ⟨[], [], c :: cs⟩)
    else .attempt (atom f c cs) fun r =>
      .goOn () r.source r.rest (Except.map (r.andThen (· ++ ·)))

/-- The loop over the words of a command or the elements of a list. It is left at the end of the
text and at a separator. -/
def wordsTurn (d : Dialect) (f : Substitutions) (_ : Unit) (cs : List Char) :
    Turn Unit (Except SyntaxError (Reading (List Word))) :=
  match d.splitSpace cs with
  | (space, []) => .leave (.ok ⟨[], space, []⟩)
  | (space, c :: rest) =>
    if d.isSeparator c then .leave (.ok ⟨[], space, c :: rest⟩)
    else .attempt (Word.read d f (c :: rest)) fun r =>
      .goOn () (space ++ r.source) r.rest
        (Except.map fun t => (r.andThen List.cons t).after space)

theorem atoms_loop (f : Substitutions) (stop : List Char → Bool) :
    ReadingLoop (atomsTurn f stop) (fun _ => atomsUntil f stop) leftOfReading := by
  refine .of_unroll (fun s cs => ?_) (fun s cs => ?_) fun _ _ =>
    suffix_of_leftOfReading atomsUntil_of
  · fun_cases atomsTurn f stop s cs with
    | case1 | case2 => trivial
    | case3 c cs hc =>
      exact Turn.advances_attempt fun r hr => ⟨atom_source_ne_nil hr, atom_of hr⟩
  · fun_cases atomsTurn f stop s cs with
    | case1 => rw [atomsUntil]; rfl
    | case2 c cs hc => rw [atomsUntil, if_pos hc]; rfl
    | case3 c cs hc =>
      rw [Turn.outcome_attempt, atomsUntil, if_neg hc]
      split
      · rename_i h; rw [h]; rfl
      · rename_i h; rw [h]; rfl

/-- A word that is read where one starts, behind space, is read from some text. -/
theorem read_progress {cs space rest : List Char} {c : Char} {r : Reading Word}
    (hs : d.splitSpace cs = (space, c :: rest)) (hc : d.isSeparator c = false)
    (h : Word.read d f (c :: rest) = .ok r) : r.source ≠ [] ∧ r.source ++ r.rest = c :: rest :=
  ⟨read_source_ne_nil ((Dialect.endsWord_of_splitSpace hs).trans hc) h, read_of h⟩

theorem words_loop (d : Dialect) (f : Substitutions) :
    ReadingLoop (wordsTurn d f) (fun _ => readAll d f) leftOfReading := by
  refine .of_unroll (fun s cs => ?_) (fun s cs => ?_) fun _ _ =>
    suffix_of_leftOfReading readAll_of
  · fun_cases wordsTurn d f s cs with
    | case1 | case2 => trivial
    | case3 space c rest hs hc =>
      refine Turn.advances_attempt fun r hr => ?_
      obtain ⟨hne, hof⟩ := read_progress hs (Bool.eq_false_iff.2 hc) hr
      have hcs := d.splitSpace_append cs
      rw [hs] at hcs
      exact ⟨List.append_ne_nil_of_right_ne_nil _ hne, by rw [List.append_assoc, hof, hcs]⟩
  · show readAll d f cs = _
    rw [readAll_eq]
    fun_cases wordsTurn d f s cs with
    | case1 space hs => rw [hs]; rfl
    | case2 space c rest hs hc =>
      rw [hs, if_pos ((Dialect.endsWord_of_splitSpace hs).trans hc)]
      rfl
    | case3 space c rest hs hc =>
      rw [hs, if_neg (by rwa [Dialect.endsWord_of_splitSpace hs]), Turn.outcome_attempt]
      rfl

end Word

/-! ## Commands -/

namespace Script

/-- The loop over the commands of a script. It keeps the number of the line. -/
def commandsTurn (f : Substitutions) (line : Nat) (cs : List Char) :
    Turn Nat (Except SyntaxError (List Command)) :=
  match splitGap false cs with
  | (_, []) => .leave (.ok [])
  | (gap, c :: rest) =>
    let first := line + newlines gap
    .attempt (readAll .script f (c :: rest)) fun r =>
      .goOn (first + newlines r.source) (gap ++ r.source) r.rest
        (Except.map (⟨r.value, first, .ofList (Text.trimEnd r.source)⟩ :: ·))

theorem commands_loop (f : Substitutions) :
    ReadingLoop (commandsTurn f) (commandsFrom f) fun _ => none := by
  refine .of_unroll (fun line cs => ?_) (fun line cs => ?_) fun _ _ => nofun
  · fun_cases commandsTurn f line cs with
    | case1 => trivial
    | case2 gap c rest hg first =>
      refine Turn.advances_attempt fun r hr => ?_
      have hstart : Dialect.script.endsWord (splitGap false cs).2 = false :=
        endsWord_splitGap (by rw [hg]; exact List.cons_ne_nil _ _)
      rw [hg] at hstart
      have hof : r.source ++ r.rest = c :: rest := Word.readAll_of hr
      have hcs := splitGap_append false cs
      rw [hg] at hcs
      exact ⟨List.append_ne_nil_of_right_ne_nil _ (Word.readAll_source_ne_nil hstart hr),
        by rw [List.append_assoc, hof, hcs]⟩
  · rw [commandsFrom_eq]
    fun_cases commandsTurn f line cs with
    | case1 gap hg => rw [hg]; rfl
    | case2 gap c rest hg first =>
      rw [hg, if_neg (List.cons_ne_nil _ _), Turn.outcome_attempt]
      rfl

end Script

/-! ## All of the reader -/

/-- What it means that reading with the substitutions `f` makes progress: a field for the words, one
for each loop, and one for a whole script. -/
structure ReadingProgresses (f : Substitutions) : Prop where
  /-- Where neither the text ends nor a separator stands behind the space, reading a word fails or
  reads at least one character of what is left. -/
  word (d : Dialect) {cs space rest : List Char} {c : Char} :
    d.splitSpace cs = (space, c :: rest) → d.isSeparator c = false →
      (∃ e, Word.read d f (c :: rest) = .error e) ∨
        ∃ r, Word.read d f (c :: rest) = .ok r ∧ r.source ≠ [] ∧ r.source ++ r.rest = c :: rest
  indent : ReadingLoop Word.indentTurn (fun _ cs => (cs.takeWhile isIndent, cs.dropWhile isIndent))
    leftOfSplit
  space (d : Dialect) : ReadingLoop d.spaceTurn (fun _ => d.splitSpace) leftOfSplit
  comment : ReadingLoop Script.commentTurn (fun _ => Script.splitComment) leftOfSplit
  gap : ReadingLoop Script.gapTurn (fun _ => Script.splitGap false) leftOfSplit
  braces : ReadingLoop Word.bracedTurn braced leftOfEnclosed
  brackets : ReadingLoop (fun s => Word.bracketedTurn s.1 s.2) (fun s => bracketed s.1 s.2)
    leftOfEnclosed
  bracedName : ReadingLoop Word.bracedNameTurn (fun _ => bracedName) leftOfEnclosed
  bareName : ReadingLoop Word.bareNameTurn (fun _ => bareName) leftOfSplit
  quotes : ReadingLoop (Word.atomsTurn f atQuote) (fun _ => atomsUntil f atQuote) leftOfReading
  bare (d : Dialect) :
    ReadingLoop (Word.atomsTurn f d.endsWord) (fun _ => atomsUntil f d.endsWord) leftOfReading
  words (d : Dialect) : ReadingLoop (Word.wordsTurn d f) (fun _ => readAll d f) leftOfReading
  commands : ReadingLoop (Script.commandsTurn f) (Script.commandsFrom f) fun _ => none
  /-- Splitting a script into commands ends. -/
  script (source : String) :
    LeavesWith (Script.commandsTurn f) 1 source.toList (Script.parse f source)

/-- Whatever the text is, whether scripts or lists are read and with which substitutions, a word
that is read takes at least one character or fails, each turn of each loop takes at least one
character or leaves the loop, and none takes more than there is. So splitting a script and splitting
a list end, the latter at the end of the text unless it fails. -/
theorem reading_makes_progress :
    (∀ f : Substitutions, ReadingProgresses f) ∧
    ∀ text : String, ∃ x, LeavesWith (Word.wordsTurn .list .escapes) () text.toList x ∧
      ListText.split text = x.map (fun r => r.value.map Word.literal) ∧
      ∀ r, x = .ok r → r.source = text.toList ∧ r.rest = [] := by
  refine ⟨fun f => ?_, fun text => ?_⟩
  · refine
      { word := fun d cs space rest c hs hc => ?_
        indent := Word.indent_loop
        space := Dialect.space_loop
        comment := Script.comment_loop
        gap := Script.gap_loop
        braces := Word.braced_loop
        brackets := Word.bracketed_loop
        bracedName := Word.bracedName_loop
        bareName := Word.bareName_loop
        quotes := Word.atoms_loop f _
        bare := fun d => Word.atoms_loop f _
        words := fun d => Word.words_loop d f
        commands := Script.commands_loop f
        script := fun source => (Script.commands_loop f).ends 1 source.toList }
    cases hr : Word.read d f (c :: rest) with
    | error e => exact .inl ⟨e, rfl⟩
    | ok r => exact .inr ⟨r, rfl, Word.read_progress hs hc hr⟩
  · refine ⟨_, (Word.words_loop .list .escapes).ends () text.toList, rfl, fun r hr => ?_⟩
    have hrest : r.rest = [] := (readAll_rest hr).resolve_right fun ⟨_, _, _, hc⟩ => by cases hc
    have hof : r.source ++ r.rest = text.toList := Word.readAll_of hr
    rw [hrest, List.append_nil] at hof
    exact ⟨hof, hrest⟩

/-- Behind a blank that is no space and a backslash before a newline, a backslash at the end of a
list is still read as a word. -/
theorem reading_makes_progress_backslash_last :
    Dialect.list.splitSpace ['\u00a0', '\\', '\n', '\\'] = (['\u00a0', '\\', '\n'], ['\\']) ∧
    Dialect.list.isSeparator '\\' = false ∧
    ∃ r, Word.read .list .escapes ['\\'] = .ok r ∧ r.source ≠ [] ∧
      r.source ++ r.rest = ['\\'] := by
  have hs : Dialect.list.splitSpace ['\u00a0', '\\', '\n', '\\'] =
      (['\u00a0', '\\', '\n'], ['\\']) := by decide
  have hread : (Word.read .list .escapes ['\\']).isOk = true := by decide +kernel
  refine ⟨hs, rfl, ((reading_makes_progress.1 .escapes).word .list hs rfl).resolve_left ?_⟩
  rintro ⟨e, he⟩
  rw [he] at hread
  cases hread

end Ensembles
