import Ensembles.Proofs.LocalCommands
import Mathlib.Data.List.Forall2

/-!
# Where commands stand in a script

Every command of a script is written in a range of its characters, and the ranges follow each other
with nothing but idle text around them (`commands_cover_source`). What stands in a range makes the
command on its own: its words, its text and, with what stands before, its line.
-/

namespace Ensembles

open Word (readAll)

/-- The characters from `start` on and before `stop`. -/
structure SourceRange where
  start : Nat
  stop : Nat
deriving DecidableEq, Repr

namespace SourceRange

/-- What stands in the range. -/
def slice (r : SourceRange) (cs : List Char) : List Char :=
  (cs.drop r.start).take (r.stop - r.start)

theorem slice_append {a b c : List Char} {start stop : Nat} (ha : a.length = start)
    (hb : (a ++ b).length = stop) : slice ⟨start, stop⟩ (a ++ b ++ c) = b := by
  have hlen : stop - start = b.length := by
    rw [← hb, ← ha, List.length_append]
    omega
  show ((a ++ b ++ c).drop start).take (stop - start) = b
  rw [hlen, ← ha, List.append_assoc, List.drop_left, List.take_left]

end SourceRange

namespace Script

/-- Text that holds no command: blanks, separators, backslashes before newlines, and comments up to
the newline after them. It starts inside a comment if `comment` is true. Where the script ends after
it (`last`), a comment may end too. -/
inductive Idle (last : Bool) : Bool → List Char → Prop
  | nil : Idle last false []
  | blank {c cs} : c ∈ [' ', '\t', '\r', '\n', ';'] → Idle last false cs → Idle last false (c :: cs)
  | continuation {cs} : Idle last false cs → Idle last false ('\\' :: '\n' :: cs)
  | comment {cs} : Idle last true cs → Idle last false ('#' :: cs)
  | plain {c cs} : c ≠ '\\' → c ≠ '\n' → Idle last true cs → Idle last true (c :: cs)
  | escaped {c cs} : Idle last true cs → Idle last true ('\\' :: c :: cs)
  | newline {cs} : Idle last false cs → Idle last true ('\n' :: cs)
  | stop : last = true → Idle last true []
  | backslash : last = true → Idle last true ['\\']

/-- From its position `p` on the text `cs` is idle outside the ranges. -/
def IdleOutside (cs : List Char) : Nat → List SourceRange → Prop
  | p, [] => Idle true false (cs.drop p)
  | p, r :: ranges =>
    Idle false false (SourceRange.slice ⟨p, r.start⟩ cs) ∧ IdleOutside cs r.stop ranges

/-- The command `c` is what stands in the range `r` of the text `cs`. -/
structure WrittenAt (f : Substitutions) (cs : List Char) (r : SourceRange) (c : Command) :
    Prop where
  text : c.text = .ofList (Text.trimEnd (r.slice cs))
  line : c.line = 1 + newlines (cs.take r.start)
  alone : ∃ c', parse f (.ofList (r.slice cs)) = .ok [c'] ∧ c'.words = c.words

/-- The commands stand in the ranges, one in each, after the position `p` of the text `cs`. -/
structure Cover (f : Substitutions) (cs : List Char) (p : Nat) (ranges : List SourceRange)
    (commands : List Command) : Prop where
  bounds : ∀ r ∈ ranges, p ≤ r.start ∧ r.start < r.stop ∧ r.stop ≤ cs.length
  increasing : ranges.Pairwise fun r r' => r.stop ≤ r'.start
  written : List.Forall₂ (WrittenAt f cs) ranges commands
  idle : IdleOutside cs p ranges

variable {f : Substitutions} {cs : List Char} {comment last : Bool}

/-! ## Gaps -/

/-- What is passed over before a command, or up to the end of the script, is idle. -/
theorem idle_splitGap (comment : Bool) (cs : List Char)
    (h : (splitGap comment cs).2 = [] → last = true) :
    Idle last comment (splitGap comment cs).1 := by
  fun_induction splitGap comment cs with
  | case1 comment =>
    cases comment with
    | false => exact .nil
    | true => exact .stop (h rfl)
  | case2 comment c cs hc ih =>
    cases comment with
    | false =>
      obtain rfl : c = '\n' := of_decide_eq_true hc
      exact .continuation (ih h)
    | true => exact .escaped (ih h)
  | case3 comment c cs hc =>
    cases comment with
    | false => exact .nil
    | true => exact absurd rfl hc
  | case4 c cs hn ih =>
    by_cases hnl : c = '\n'
    · subst hnl
      exact .newline (ih h)
    rw [decide_eq_true hnl] at ih h ⊢
    by_cases hb : c = '\\'
    · subst hb
      cases cs with
      | nil => exact .backslash (h rfl)
      | cons d ds => exact (hn d ds rfl rfl).elim
    · exact .plain hb hnl (ih h)
  | case5 comment cs hc _ ih =>
    obtain rfl := Bool.eq_false_iff.2 hc
    exact .comment (ih h)
  | case6 comment c cs _ hc _ hs ih =>
    obtain rfl := Bool.eq_false_iff.2 hc
    refine .blank ?_ (ih h)
    simpa [Dialect.isSpace, Dialect.isSeparator, or_assoc] using hs
  | case7 comment c cs _ hc =>
    obtain rfl := Bool.eq_false_iff.2 hc
    exact .nil

/-- A command does not start with a number sign. -/
theorem head?_splitGap (comment : Bool) (cs : List Char) :
    (splitGap comment cs).2.head? ≠ some '#' := by
  fun_induction splitGap comment cs with
  | case1 =>
    intro h
    cases h
  | case2 | case4 | case5 | case6 => rename_i ih; exact ih
  | case3 =>
    intro h
    cases h
  | case7 comment c cs _ _ hc => exact fun h => hc (Option.some.inj h)

/-! ## Commands -/

/-- A word that is cut off does not end where it starts. -/
theorem endsWord_of_append {d : Dialect} {t : List Char} (hn : cs ≠ [])
    (h : d.endsWord (cs ++ t) = false) : d.endsWord cs = false := by
  obtain ⟨c, ds, rfl⟩ := List.exists_cons_of_ne_nil hn
  by_cases hb : c = '\\'
  · subst hb
    cases ds with
    | nil => cases d <;> decide
    | cons e es =>
      refine endsWord_backslash ?_
      rintro rfl
      cases h
  · rw [List.cons_append, endsWord_cons hb] at h
    rwa [endsWord_cons hb]

/-- The words of a command are a script of their own. -/
theorem parse_source {r : Reading (List Word)} (hs : Dialect.script.endsWord cs = false)
    (hc : cs.head? ≠ some '#') (h : readAll .script f cs = .ok r) :
    ∃ c, parse f (.ofList r.source) = .ok [c] ∧ c.words = r.value := by
  have hne : r.source ≠ [] := Word.readAll_source_ne_nil hs h
  have hof : r.source ++ r.rest = cs := Word.readAll_of h
  have hread : readAll .script f r.source = .ok { r with rest := [] } := by
    have := readAll_local h (t := []) (fun _ ht => absurd rfl ht) nofun
    rwa [List.append_nil] at this
  refine ⟨_, parse_of_readAll (endsWord_of_append hne (hof.symm ▸ hs)) (fun hhead => hc ?_) hread,
    rfl⟩
  rw [← hof, List.head?_append, hhead]
  rfl

/-- A command in front of others that stand in ranges. -/
theorem Cover.cons {before gap source rest : List Char} {ranges : List SourceRange} {c : Command}
    {commands : List Command} (hgap : Idle false false gap) (hn : source ≠ [])
    (htext : c.text = .ofList (Text.trimEnd source)) (hline : c.line = 1 + newlines (before ++ gap))
    (halone : ∃ c', parse f (.ofList source) = .ok [c'] ∧ c'.words = c.words)
    (h : Cover f (before ++ gap ++ source ++ rest) (before ++ gap ++ source).length ranges
      commands) :
    Cover f (before ++ gap ++ source ++ rest) before.length
      (⟨(before ++ gap).length, (before ++ gap ++ source).length⟩ :: ranges) (c :: commands) := by
  have hlen : before.length ≤ (before ++ gap).length := by simp
  have hlt : (before ++ gap).length < (before ++ gap ++ source).length := by
    have := List.length_pos_iff.2 hn
    simp only [List.length_append]
    omega
  have hslice : SourceRange.slice ⟨(before ++ gap).length, (before ++ gap ++ source).length⟩
      (before ++ gap ++ source ++ rest) = source :=
    SourceRange.slice_append rfl rfl
  refine ⟨?_, ?_, .cons ⟨?_, ?_, ?_⟩ h.written, ?_, h.idle⟩
  · refine List.forall_mem_cons.2 ⟨⟨hlen, hlt, by simp⟩, fun r hr => ?_⟩
    obtain ⟨hstart, hr⟩ := h.bounds r hr
    exact ⟨by omega, hr⟩
  · exact .cons (fun r hr => (h.bounds r hr).1) h.increasing
  · rw [hslice, htext]
  · rw [hline, List.append_assoc (before ++ gap), List.take_left]
  · rwa [hslice]
  · rw [List.append_assoc (before ++ gap), SourceRange.slice_append rfl rfl]
    exact hgap

/-- The commands that are read after `before` stand in ranges after it. -/
theorem cover_commandsFrom {line : Nat} {commands : List Command} (before : List Char)
    (hline : line = 1 + newlines before) (h : commandsFrom f line cs = .ok commands) :
    ∃ ranges, Cover f (before ++ cs) before.length ranges commands := by
  fun_induction commandsFrom f line cs generalizing before commands with
  | case1 line cs hg =>
    cases h
    refine ⟨[], List.forall_mem_nil _, .nil, .nil, ?_⟩
    have hidle : Idle true false _ := idle_splitGap false cs fun _ => rfl
    have hall := splitGap_append false cs
    rw [hg, List.append_nil] at hall
    rw [hall] at hidle
    show Idle true false ((before ++ cs).drop before.length)
    rwa [List.drop_left]
  | case2 => cases h
  | case3 line cs hg r hr first =>
    rename_i ih
    obtain ⟨later, hlater, rfl⟩ := exists_of_map_eq_ok h
    have hwhole : before ++ cs = before ++ (splitGap false cs).1 ++ r.source ++ r.rest := by
      have hof : r.source ++ r.rest = (splitGap false cs).2 := Word.readAll_of hr
      rw [List.append_assoc, hof, List.append_assoc, splitGap_append]
    have hfirst : first = 1 + newlines (before ++ (splitGap false cs).1) := by
      rw [newlines_append]
      omega
    have hidle : Idle false false _ := idle_splitGap false cs fun he => absurd he hg
    have halone := parse_source (endsWord_splitGap hg) (head?_splitGap false cs) hr
    have hne := Word.readAll_source_ne_nil (endsWord_splitGap hg) hr
    obtain ⟨ranges, hcover⟩ := ih (before ++ (splitGap false cs).1 ++ r.source)
      (by rw [newlines_append _ r.source]; omega) hlater
    rw [hwhole]
    exact ⟨_, hcover.cons hidle hne rfl hfirst halone⟩

end Script

/-- The commands of a script are written, one after another, in ranges of its characters: in each
range stands the text of the command and blanks at its end, as many newlines stand before it as
there are lines before the command's, and on its own what stands in it is read as one command with
the same words. Around the ranges there are only blanks, separators, backslashes before newlines
and whole comments. -/
theorem commands_cover_source {f : Substitutions} {source : String} {commands : List Command}
    (h : Script.parse f source = .ok commands) :
    ∃ ranges, Script.Cover f source.toList 0 ranges commands :=
  Script.cover_commandsFrom [] rfl h

theorem commands_cover_commented_source :
    ∃ ranges, Script.Cover .all
      "# one\\\ntwo\n set x \x7ba\n#b\x7d ; f $x\\\n y\t;# end\\".toList 0 ranges
      [⟨[.ofText "set", .ofText "x", .ofText "a\n#b"], 3, "set x \x7ba\n#b\x7d"⟩,
        ⟨[.ofText "f", .ofAtoms [.var "x"], .ofText "y"], 4, "f $x\\\n y"⟩] :=
  commands_cover_source (by decide +kernel)

end Ensembles
