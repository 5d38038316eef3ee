import Ensembles.Interpreter
import Ensembles.Proofs.Quoting

/-!
# A written list as a command

The words of a command, written as a list, are a script of one command with just these
words. So evaluating the written list does what invoking the words does:

* `parse_merge`: the script has one command, on line 1, whose words are the elements;
* `evalCommands_singleton`: a script of one command adds a note on it to an error;
* `declareBody_merge`: as the body of an ensemble it makes that declaration, one level down;
* `eval_merge_agrees_invoke`: evaluating and invoking leave the same state and give the same
  value, or errors that differ in one note only.
-/

namespace Ensembles

open Word (readAll ofText)
open ListText (quoteChars quote merge)

/-! ## Reading -/

/-- No gap stands where a word that is no comment starts. -/
theorem splitGap_of_not_endsWord {cs : List Char} (h : Dialect.script.endsWord cs = false)
    (hc : cs.head? ≠ some '#') : Script.splitGap false cs = ([], cs) := by
  fun_cases Script.splitGap false cs with
  | case1 | case3 | case7 => rfl
  | case2 c cs hn =>
    simp only [Bool.false_or, decide_eq_true_eq] at hn
    subst hn
    cases h
  | case4 c cs _ hn => cases hn
  | case5 => exact absurd rfl hc
  | case6 c cs hb _ _ hn =>
    rw [Dialect.endsWord.eq_3 _ _ _ fun _ => hb _ _, hn] at h
    cases h

theorem head?_quoteChars_ne (cs rest : List Char) :
    (quoteChars cs ++ rest).head? ≠ some '#' := by
  obtain ⟨hn, -, hh, hq⟩ | ⟨-, -, hq⟩ | ⟨hn, hq⟩ := quoteChars_cases cs
  · obtain ⟨c, cs, rfl⟩ := List.exists_cons_of_ne_nil hn
    rw [hq]
    exact hh
  · rw [hq]
    simp
  · rw [hq]
    obtain ⟨ds, rfl, he⟩ | ⟨hh, he⟩ := escapeAll_eq cs
    · rw [he]
      simp
    · obtain ⟨c, cs, rfl⟩ := List.exists_cons_of_ne_nil hn
      rw [he, List.flatMap_cons, ListText.escape]
      split
      · simp
      split
      · simp
      split
      · simp
      split
      · simp
      · exact hh

/-- A written list that is not empty starts with a written element. -/
theorem toList_merge_cons (item : String) (items : List String) :
    ∃ rest, (merge (item :: items)).toList = quoteChars item.toList ++ rest := by
  rw [toList_merge, List.map_cons, List.map_cons]
  cases (items.map String.toList).map quoteChars with
  | nil => exact ⟨[], by simp⟩
  | cons q qs => exact ⟨_, by rw [List.intercalate_cons_cons, List.append_assoc]⟩

/-- `Script.commandsFrom` without the proof that it ends. -/
theorem commandsFrom_eq (f : Substitutions) (line : Nat) (cs : List Char) :
    Script.commandsFrom f line cs =
      if (Script.splitGap false cs).2 = [] then .ok []
      else
        let first := line + Script.newlines (Script.splitGap false cs).1
        (readAll .script f (Script.splitGap false cs).2).bind fun r =>
          (Script.commandsFrom f (first + Script.newlines r.source) r.rest).map
            (⟨r.value, first, .ofList (Text.trimEnd r.source)⟩ :: ·) := by
  rw [Script.commandsFrom]
  split
  · rfl
  split
  · rename_i h; rw [h]; rfl
  · rename_i h; rw [h]; rfl

theorem parse_merge_nil (f : Substitutions) : Script.parse f (merge []) = .ok [] := by
  rw [merge, List.map_nil, String.intercalate_nil, Script.parse, commandsFrom_eq]
  rfl

/-- A text that is read as words up to its end is a script of one command. -/
theorem parse_of_readAll {f : Substitutions} {cs : List Char} {words : List Word}
    (hs : Dialect.script.endsWord cs = false) (hc : cs.head? ≠ some '#')
    (h : readAll .script f cs = .ok ⟨words, cs, []⟩) :
    Script.parse f (.ofList cs) = .ok [⟨words, 1, .ofList (Text.trimEnd cs)⟩] := by
  have hne : cs ≠ [] := by
    rintro rfl
    cases hs
  rw [Script.parse, String.toList_ofList, commandsFrom_eq, splitGap_of_not_endsWord hs hc,
    if_neg hne, h]
  show Except.map _ (Script.commandsFrom f _ []) = _
  rw [commandsFrom_eq]
  rfl

/-- The script that writes a list is one command, whose words are the elements. -/
theorem parse_merge {f : Substitutions} (hf : f.ofBackslashes = true) (item : String)
    (items : List String) :
    Script.parse f (merge (item :: items)) =
      .ok [⟨(item :: items).map ofText, 1,
        .ofList (Text.trimEnd (merge (item :: items)).toList)⟩] := by
  obtain ⟨rest, hm⟩ := toList_merge_cons item items
  have hp := parse_of_readAll (hm ▸ endsWord_quoteChars ..) (hm ▸ head?_quoteChars_ne _ _)
    (readAll_merge hf (item :: items))
  rwa [String.ofList_toList] at hp

theorem literal_texts (texts : List String) : (texts.map ofText).map Word.literal = texts := by
  rw [List.map_map]
  exact List.map_id'' literal_ofText _

/-! ## Evaluating -/

namespace Run

theorem expand_ofText (deeper : Deeper) (text : String) :
    expand deeper (ofText text) = pure text := by
  simp [expand, ofText, expandPiece]

theorem expand_texts (deeper : Deeper) (texts : List String) :
    (texts.map ofText).mapM (expand deeper) = pure texts := by
  induction texts with
  | nil => rfl
  | cons text texts ih =>
    rw [List.map_cons, List.mapM_cons, expand_ofText, pure_bind, ih, pure_bind]

/-- A command without substitutions is invoked with its words. -/
theorem evalCommand_texts (deeper : Deeper) (texts : List String) (line : Nat) (text : String) :
    evalCommand deeper ⟨texts.map ofText, line, text⟩ = invoke deeper texts := by
  rw [evalCommand, expand_texts, pure_bind]

/-- A script of one command ends as the command does, and adds a note on it to an error. -/
theorem evalCommands_singleton (deeper : Deeper) (blame : Command → Error → Error)
    (last : Completion) (c : Command) :
    evalCommands deeper blame last [c] =
      (evalCommand deeper c).mapError fun _ e => blame c (e.traced c.text) := by
  rw [evalCommands]
  refine (bind_congr fun done => ?_).trans (bind_pure _)
  cases done <;> rfl

theorem eval_of_parse (deeper : Deeper) {source : String} {commands : List Command}
    (h : Script.parse .all source = .ok commands) :
    eval deeper source = deeper (.script commands) := by
  have hp : parse .all source = pure commands := by
    funext s
    simp only [parse, h]
    rfl
  rw [eval, hp, pure_bind]

/-- With no level left, a written list is not evaluated. -/
theorem eval_merge_zero (argv : List String) :
    eval (perform 0) (merge argv) = fail .nestedTooDeep := by
  cases argv with
  | nil => exact eval_of_parse _ (parse_merge_nil .all)
  | cons item items => exact eval_of_parse _ (parse_merge rfl item items)

/-- With a level left, evaluating a written list is invoking its elements, with a note on
an error. -/
theorem eval_merge_succ (levels : Nat) (argv : List String) :
    eval (perform (levels + 1)) (merge argv) =
      (perform (levels + 1) (.invoke argv)).mapError fun _ e =>
        e.traced (.ofList (Text.trimEnd (merge argv).toList)) := by
  cases argv with
  | nil => rw [eval_of_parse _ (parse_merge_nil .all)]; rfl
  | cons item items =>
    rw [eval_of_parse _ (parse_merge rfl item items)]
    show evalCommands (perform levels) (fun _ e => e) (.normal "") _ = _
    rw [evalCommands_singleton, evalCommand_texts]
    rfl

/-! ## Declaring -/

/-- A written declaration, as it is read in a body. -/
def written (keyword : String) (args : List String) : Command :=
  ⟨(keyword :: args).map ofText, 1, .ofList (Text.trimEnd (merge (keyword :: args)).toList)⟩

theorem parse_written (keyword : String) (args : List String) :
    parse .escapes (merge (keyword :: args)) = pure [written keyword args] := by
  funext s
  rw [parse, parse_merge rfl]
  rfl

theorem declareBody_merge_zero (id : EnsembleId) (keyword : String) (args : List String) :
    declareBody (perform 0) id (merge (keyword :: args)) = fail .nestedTooDeep := by
  rw [declareBody, parse_written, pure_bind]
  rfl

/-- The body that is one written declaration makes that declaration, one level down. -/
theorem declareBody_merge (levels : Nat) (id : EnsembleId) (keyword : String) (args : List String) :
    declareBody (perform (levels + 1)) id (merge (keyword :: args)) =
      (declare (perform levels) id (keyword :: args)).mapError fun _ e =>
        (e.traced (written keyword args).text).note (.bodyLine 1) := by
  have hall : declareAll (perform levels) id [written keyword args] =
      (declare (perform levels) id (keyword :: args)).mapError fun _ e =>
        (e.traced (written keyword args).text).note (.bodyLine 1) := by
    have hwords : (written keyword args).words.map Word.literal = keyword :: args :=
      literal_texts _
    show (declare (perform levels) id _).mapError _ >>= _ = _
    rw [hwords]
    exact bind_pure _
  rw [declareBody, parse_written, pure_bind]
  show (fun _ => ()) <$> (declareAll (perform levels) id [written keyword args] >>= fun _ =>
    pure (Completion.normal "")) = _
  rw [hall, map_bind]
  simp only [map_pure]
  exact bind_pure _

end Run

/-- Evaluating a written list and invoking its elements leave the same interpreter. Both
fail without notes if no level is left where they start. Otherwise they give the same
value, or errors that differ in one note, which evaluating adds; the note shows the
written list. -/
theorem eval_merge_agrees_invoke (i : Interpreter) (argv : List String) :
    (i.eval (merge argv)).2 = (i.invoke argv).2 ∧
      match i.limit, (i.invoke argv).1 with
      | 0, r => r = .error (.of .nestedTooDeep) ∧ (i.eval (merge argv)).1 = r
      | _ + 1, .ok value => (i.eval (merge argv)).1 = .ok value
      | _ + 1, .error e =>
        ∃ n : Note, (i.eval (merge argv)).1 = .error (e.note n) ∧
          n.text = (if e.notes = [] then "while executing\n" else "invoked from within\n") ++
            quoted (clip (.ofList (Text.trimEnd (merge argv).toList))) := by
  obtain ⟨limit, s⟩ := i
  cases limit with
  | zero =>
    simp only [Interpreter.eval, Run.eval_merge_zero]
    exact ⟨rfl, rfl, rfl⟩
  | succ levels =>
    simp only [Interpreter.eval, Run.eval_merge_succ, Interpreter.invoke]
    generalize hx : perform (levels + 1) (.invoke argv) = x
    simp only [Interpreter.run, bind, EStateM.bind, Run.mapError]
    cases x s with
    | ok done s' => exact ⟨rfl, rfl⟩
    | error e s' =>
      refine ⟨rfl, _, rfl, ?_⟩
      split
      · rfl
      · rfl

end Ensembles
