import Ensembles.Proofs.LocalCommands
import Mathlib.Data.List.Basic

/-!
# Joined texts

A script in front of another script, with a newline between them, is read as the one and then the
other, and a list in front of another list, with a blank between them, as the elements of the one
and then those of the other (`joined_texts_are_read_in_turn`). Only a backslash at the end of the
first text, which would protect what comes after it, is in the way.
-/

namespace Ensembles

/-- The elements of two texts with a blank between them are those of the one and then those of the
other, unless a backslash protects the blank. -/
theorem ListText.split_append_blank {a b : String} {w : Char} {xs : List String}
    (h : split a = .ok xs) (hl : a.toList.getLast? ≠ some '\\') (hw : Text.isBlank w = true) :
    split (a ++ .singleton w ++ b) = (split b).map (xs ++ ·) := by
  obtain ⟨r, hr, rfl⟩ := exists_of_map_eq_ok h
  have hrest : r.rest = [] := (readAll_rest hr).resolve_right fun ⟨_, _, _, hc⟩ => by cases hc
  have hof : r.source ++ r.rest = a.toList := Word.readAll_of hr
  rw [hrest, List.append_nil] at hof
  have hspace : Dialect.list.isSpace w = true := hw
  have htoList : (a ++ .singleton w ++ b).toList = r.source ++ w :: b.toList := by
    rw [hof]
    simp
  rw [split, htoList, readAll_append hr (fun _ => hof ▸ hl) (endsWord_of_isSpace hspace _),
    readAll_space b.toList hspace, split]
  cases Word.readAll .list .escapes b.toList with
  | error e => rfl
  | ok q => simp only [Except.map, Reading.after, List.map_append]

/-- A script that can be read and does not end in a backslash, then a newline and any other script,
is read as the commands of the one and then those of the other, moved down; if the other cannot be
read, neither can the two, for the same reason. A list that can be read and does not end in a
backslash, then any blank and any other list, is read in the same way. -/
theorem joined_texts_are_read_in_turn :
    (∀ (f : Substitutions) (a b : String) (commands : List Command),
      Script.parse f a = .ok commands → a.toList.getLast? ≠ some '\\' →
        Script.parse f (a ++ "\n" ++ b) =
          (Script.parse f b).map fun later =>
            commands ++ later.map (.later (1 + Script.newlines a.toList))) ∧
      ∀ (a b : String) (w : Char) (xs : List String),
        ListText.split a = .ok xs → a.toList.getLast? ≠ some '\\' → Text.isBlank w = true →
          ListText.split (a ++ .singleton w ++ b) = (ListText.split b).map (xs ++ ·) := by
  constructor
  · intro f a b commands h hl
    have htoList : (a ++ "\n" ++ b).toList = a.toList ++ '\n' :: b.toList := by simp
    rw [Script.parse, htoList, Script.commandsFrom_append h hl, Script.commandsFrom_add,
      Script.parse]
    cases Script.commandsFrom f 1 b.toList with
    | error e => rfl
    | ok later => rfl
  · intro a b w xs h hl hw
    exact ListText.split_append_blank h hl hw

theorem comment_and_continued_list_joined :
    Script.parse .all ("set x \x7b1\n2\x7d; # c" ++ "\n" ++ "f $x") =
        .ok [⟨[.ofText "set", .ofText "x", .ofText "1\n2"], 1, "set x \x7b1\n2\x7d"⟩,
          ⟨[.ofText "f", .ofAtoms [.var "x"]], 3, "f $x"⟩] ∧
      ListText.split ("a \x7bb c\x7d \\\n" ++ .singleton '\t' ++ "d\\ e") =
        .ok ["a", "b c", "d e"] := by
  obtain ⟨hscripts, hlists⟩ := joined_texts_are_read_in_turn
  have hscript : Script.parse .all "set x \x7b1\n2\x7d; # c" =
      .ok [⟨[.ofText "set", .ofText "x", .ofText "1\n2"], 1, "set x \x7b1\n2\x7d"⟩] := by
    decide +kernel
  have hlist : ListText.split "a \x7bb c\x7d \\\n" = .ok ["a", "b c"] := by decide +kernel
  constructor
  · rw [hscripts .all _ _ _ hscript (by decide +kernel)]
    decide +kernel
  · rw [hlists _ _ _ _ hlist (by decide +kernel) (by decide +kernel)]
    decide +kernel

end Ensembles
