import Ensembles.Proofs.LocalWords
import Ensembles.Proofs.WrittenCommand

/-!
# Commands are read locally

What stands between commands, and the commands themselves, are read in front of a newline as they
are at the end of the text (`Script.splitGap_append_newline`, `Script.readAll_append_newline`). The
line that a text starts on only moves the lines of its commands (`Script.commandsFrom_add`). So the
commands of two texts with a newline between them are those of the one and then those of the other
(`Script.commandsFrom_append`).
-/

namespace Ensembles

open Word (readAll)

/-- The command on a line that is `k` lines further down. -/
def Command.later (k : Nat) (c : Command) : Command := { c with line := c.line + k }

namespace Script

variable {f : Substitutions} {c : Char} {cs t : List Char} {comment : Bool}

theorem newlines_append (cs t : List Char) : newlines (cs ++ t) = newlines cs + newlines t :=
  List.count_append

/-! ## Gaps -/

theorem splitGap_cons (hc : c ≠ '\\') :
    splitGap comment (c :: cs) =
      if comment then Word.push c (splitGap (c ≠ '\n') cs)
      else if c = '#' then Word.push c (splitGap true cs)
      else if Dialect.script.isSpace c || Dialect.script.isSeparator c then
        Word.push c (splitGap false cs)
      else ([], c :: cs) :=
  splitGap.eq_3 comment c cs fun _ _ h => absurd h hc

/-- A newline ends a comment, and a gap goes on after it. -/
theorem splitGap_newline (comment : Bool) (cs : List Char) :
    splitGap comment ('\n' :: cs) = Word.push '\n' (splitGap false cs) := by
  cases comment <;> rfl

/-- In front of a newline a gap is the same if a command follows it, and otherwise goes on over the
newline, unless a backslash protects that. -/
theorem splitGap_append_newline (comment : Bool) (hl : cs.getLast? ≠ some '\\') (t : List Char) :
    splitGap comment (cs ++ '\n' :: t) =
      if (splitGap comment cs).2 = [] then
        (cs ++ '\n' :: (splitGap false t).1, (splitGap false t).2)
      else ((splitGap comment cs).1, (splitGap comment cs).2 ++ '\n' :: t) := by
  fun_induction splitGap comment cs with
  | case1 comment => exact splitGap_newline comment t
  | case2 comment c cs hc ih =>
    rw [List.cons_append, List.cons_append, splitGap.eq_2, if_pos hc,
      ih (getLast?_ne_of_append ['\\', c] hl)]
    exact apply_ite (Word.push '\\' ∘ Word.push c) ..
  | case3 comment c cs hc => rw [List.cons_append, List.cons_append, splitGap.eq_2, if_neg hc]; rfl
  | case4 c cs hn ih =>
    rw [List.cons_append, splitGap_cons (ne_backslash hn hl), if_pos rfl,
      ih (getLast?_ne_of_append [c] hl)]
    exact apply_ite (Word.push c) ..
  | case5 comment cs hc hn ih =>
    rw [List.cons_append, splitGap_cons (by decide), if_neg hc, if_pos rfl,
      ih (getLast?_ne_of_append ['#'] hl)]
    exact apply_ite (Word.push '#') ..
  | case6 comment c cs hn hc hs hb ih =>
    rw [List.cons_append, splitGap_cons (ne_backslash hn hl), if_neg hc, if_neg hs, if_pos hb,
      ih (getLast?_ne_of_append [c] hl)]
    exact apply_ite (Word.push c) ..
  | case7 comment c cs hn hc hs hb =>
    rw [List.cons_append, splitGap_cons (ne_backslash hn hl), if_neg hc, if_neg hs, if_neg hb]
    rfl

/-! ## Commands -/

/-- A script that starts further down has the same commands, further down. -/
theorem commandsFrom_add (f : Substitutions) (line k : Nat) (cs : List Char) :
    commandsFrom f (line + k) cs = (commandsFrom f line cs).map (·.map (.later k)) := by
  fun_induction commandsFrom f line cs with
  | case1 line cs hg => rw [commandsFrom_eq, if_pos hg]; rfl
  | case2 line cs hg e he => rw [commandsFrom_eq, if_neg hg, he]; rfl
  | case3 line cs hg r hr first ih =>
    have hfirst : line + k + newlines (splitGap false cs).1 = first + k := by omega
    rw [commandsFrom_eq, if_neg hg, hr]
    simp only [Except.bind, hfirst, Nat.add_right_comm first k, ih]
    cases commandsFrom f (first + newlines r.source) r.rest with
    | error e => rfl
    | ok commands => rfl

/-- What is passed over before the commands only moves their lines. -/
theorem commandsFrom_of_splitGap {line : Nat} {cs' gap : List Char}
    (h : splitGap false cs' = (gap ++ (splitGap false cs).1, (splitGap false cs).2)) :
    commandsFrom f line cs' = commandsFrom f (line + newlines gap) cs := by
  rw [commandsFrom_eq, commandsFrom_eq f _ cs, h]
  simp only [newlines_append, Nat.add_assoc]

/-- The words of a command are read in front of a newline as they are at the end of the text, unless
a backslash protects the newline. -/
theorem readAll_append_newline {r : Reading (List Word)} (h : readAll .script f cs = .ok r)
    (hl : cs.getLast? ≠ some '\\') (t : List Char) :
    readAll .script f (cs ++ '\n' :: t) = .ok { r with rest := r.rest ++ '\n' :: t } := by
  have hof : r.source ++ r.rest = cs := Word.readAll_of h
  rw [← hof, List.append_assoc]
  refine readAll_local h (fun hr _ => ?_) fun c hc => ?_
  · rwa [← hof, hr, List.append_nil] at hl
  · rcases readAll_rest h with hr | ⟨c', t', hr, hc'⟩
    · rw [hr] at hc
      cases hc
      rfl
    · rw [hr] at hc
      cases hc
      exact hc'

/-- The commands of two texts with a newline between them are those of the one text and then those
of the other, unless a backslash protects the newline. -/
theorem commandsFrom_append {line : Nat} {commands : List Command}
    (h : commandsFrom f line cs = .ok commands) (hl : cs.getLast? ≠ some '\\') (t : List Char) :
    commandsFrom f line (cs ++ '\n' :: t) =
      (commandsFrom f (line + (1 + newlines cs)) t).map (commands ++ ·) := by
  fun_induction commandsFrom f line cs generalizing commands with
  | case1 line cs hg =>
    cases h
    have hgap : splitGap false (cs ++ '\n' :: t) =
        (cs ++ ['\n'] ++ (splitGap false t).1, (splitGap false t).2) := by
      rw [splitGap_append_newline false hl, if_pos hg, List.append_assoc]
      rfl
    have hline : newlines (cs ++ ['\n']) = 1 + newlines cs := by
      rw [newlines_append, Nat.add_comm]
      rfl
    rw [commandsFrom_of_splitGap hgap, hline]
    cases commandsFrom f (line + (1 + newlines cs)) t with
    | error e => rfl
    | ok later => rfl
  | case2 => cases h
  | case3 line cs hg r hr first =>
    rename_i ih
    obtain ⟨later, hlater, rfl⟩ := exists_of_map_eq_ok h
    have hcs : (splitGap false cs).1 ++ (splitGap false cs).2 = cs := splitGap_append false cs
    have hof : r.source ++ r.rest = (splitGap false cs).2 := Word.readAll_of hr
    have hl' : (splitGap false cs).2.getLast? ≠ some '\\' :=
      getLast?_ne_of_append _ (hcs.symm ▸ hl)
    have hrest : r.rest.getLast? ≠ some '\\' := getLast?_ne_of_append _ (hof.symm ▸ hl')
    have hnew : newlines cs =
        newlines (splitGap false cs).1 + (newlines r.source + newlines r.rest) := by
      rw [← newlines_append, ← newlines_append, hof, hcs]
    have hline : line + (1 + newlines cs) =
        first + newlines r.source + (1 + newlines r.rest) := by omega
    rw [commandsFrom_eq, splitGap_append_newline false hl, if_neg hg,
      if_neg (List.append_ne_nil_of_left_ne_nil hg _), readAll_append_newline hr hl', hline]
    show Except.map _ (commandsFrom f (first + newlines r.source) (r.rest ++ '\n' :: t)) = _
    rw [ih hlater hrest]
    cases commandsFrom f (first + newlines r.source + (1 + newlines r.rest)) t with
    | error e => rfl
    | ok commands => rfl

end Script

end Ensembles
