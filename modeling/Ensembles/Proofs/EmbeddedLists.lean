import Ensembles.Proofs.ConcatenatedLists
import Ensembles.Proofs.WrittenCommand

/-!
# Written lists embedded in scripts

A written list may stand between two braces or between two brackets, whatever its elements are. What
is written for an element opens nothing that it does not close, neither for the reader of text in
braces nor for the reader of a script in brackets (`Enclosable`, `enclosable_quoteChars`). So both
readers come to the end of the list before they come to the brace or the bracket that closes it
(`merged_lists_are_embedded`).
-/

namespace Ensembles

open Word (braced bracketed readAll ofText)
open ListText (isSpecial balanced escape escapeAll quoteChars merge)

/-- The text is passed over on the way to a closing brace and on the way to a closing bracket,
whatever was opened before it. -/
structure Enclosable (e : List Char) : Prop where
  braced (depth : Nat) (rest : List Char) :
    braced depth (e ++ rest) = (braced depth rest).map fun r => (e ++ r.1, r.2)
  bracketed (depth braces : Nat) (rest : List Char) :
    bracketed depth braces (e ++ rest) = (bracketed depth braces rest).map fun r => (e ++ r.1, r.2)

theorem enclosable_nil : Enclosable [] :=
  ⟨fun _ _ => Option.map_id'.symm, fun _ _ _ => Option.map_id'.symm⟩

theorem Enclosable.append {e e' : List Char} (h : Enclosable e) (h' : Enclosable e') :
    Enclosable (e ++ e') where
  braced depth rest := by
    rw [List.append_assoc, h.braced, h'.braced, Option.map_map]
    simp only [Function.comp_def, List.append_assoc]
  bracketed depth braces rest := by
    rw [List.append_assoc, h.bracketed, h'.bracketed, Option.map_map]
    simp only [Function.comp_def, List.append_assoc]

theorem enclosable_flatMap (enc : Char → List Char) {cs : List Char}
    (h : ∀ c ∈ cs, Enclosable (enc c)) : Enclosable (cs.flatMap enc) := by
  induction cs with
  | nil => exact enclosable_nil
  | cons c cs ih =>
    rw [List.flatMap_cons]
    exact (h c (List.mem_cons_self ..)).append (ih fun c hc => h c (List.mem_cons_of_mem _ hc))

/-! ## Characters -/

/-- A backslash protects what it stands before. -/
theorem enclosable_backslash (c : Char) : Enclosable ['\\', c] :=
  ⟨fun _ _ => rfl, fun _ _ _ => rfl⟩

theorem bracketed_plain {c : Char} (depth braces : Nat) (cs : List Char) (hb : c ≠ '\\')
    (ho : c ≠ '{') (hc : c ≠ '}') (hs : braces = 0 → c ≠ '[' ∧ c ≠ ']') :
    bracketed depth braces (c :: cs) = (bracketed depth braces cs).map (Word.push c) :=
  Word.bracketed.eq_8 depth braces c cs (fun _ _ h => absurd h hb) ho hc (fun h => (hs h).1)
    (fun _ h => (hs h).2) fun _ _ h => (hs h).2

theorem enclosable_plain {c : Char} (h : c ∉ ['\\', '{', '}', '[', ']']) : Enclosable [c] := by
  simp only [List.mem_cons, List.not_mem_nil, or_false, not_or] at h
  obtain ⟨hb, ho, hc, hs⟩ := h
  refine ⟨fun depth rest => ?_, fun depth braces rest => ?_⟩
  · exact Word.braced.eq_6 depth c rest (fun _ _ h => absurd h hb) ho (fun _ h => hc h)
      fun _ _ h => hc h
  · exact bracketed_plain depth braces rest hb ho hc fun _ => hs

theorem enclosable_of_not_isSpecial {c : Char} (h : isSpecial c = false) : Enclosable [c] := by
  have hall : ['\\', '{', '}', '[', ']'].all isSpecial = true := by decide
  exact enclosable_plain fun hc => ne_of_not_isSpecial h (List.all_eq_true.1 hall c hc) rfl

theorem enclosable_escape (c : Char) : Enclosable (escape c) := by
  unfold escape
  split
  · exact enclosable_backslash 'n'
  split
  · exact enclosable_backslash 't'
  split
  · exact enclosable_backslash 'r'
  split
  · exact enclosable_backslash c
  · rename_i hs
    exact enclosable_of_not_isSpecial (Bool.eq_false_iff.2 hs)

/-! ## Elements -/

/-- Inside braces no bracket counts on the way to a closing bracket, so text that closes the braces
open before it, and no others, is passed over. -/
theorem bracketed_append_of_balanced {opened depth braces : Nat} {cs : List Char}
    (rest : List Char) (h : balanced opened cs = true) (hl : cs.getLast? ≠ some '\\') :
    bracketed depth (braces + 1 + opened) (cs ++ rest) =
      (bracketed depth (braces + 1) rest).map fun r => (cs ++ r.1, r.2) := by
  fun_induction balanced opened cs with
  | case1 opened =>
    rw [beq_iff_eq] at h
    subst h
    exact Option.map_id'.symm
  | case2 opened c cs ih =>
    show (bracketed depth (braces + 1 + opened) (cs ++ rest)).map
      (Word.push '\\' ∘ Word.push c) = _
    rw [ih h (getLast?_ne_of_append ['\\', c] hl), Option.map_map]
    rfl
  | case3 opened cs ih =>
    show (bracketed depth (braces + 1 + (opened + 1)) (cs ++ rest)).map (Word.push '{') = _
    rw [ih h (getLast?_ne_of_append ['{'] hl), Option.map_map]
    rfl
  | case4 => cases h
  | case5 opened cs ih =>
    show (bracketed depth (braces + 1 + opened) (cs ++ rest)).map (Word.push '}') = _
    rw [ih h (getLast?_ne_of_append ['}'] hl), Option.map_map]
    rfl
  | case6 opened c cs hesc hopen hclose hclose' ih =>
    have hne : c ≠ '}' := by
      rintro rfl
      cases opened with
      | zero => exact hclose rfl rfl
      | succ n => exact hclose' n rfl rfl
    rw [List.cons_append, bracketed_plain _ _ _ (ne_backslash hesc hl) hopen hne (by omega),
      ih h (getLast?_ne_of_append [c] hl), Option.map_map]
    rfl

theorem enclosable_braces {cs : List Char} (h : balanced 0 cs = true)
    (hl : cs.getLast? ≠ some '\\') : Enclosable ('{' :: cs ++ ['}']) where
  braced depth rest := by
    show (braced (depth + 1 + 0) (cs ++ ['}'] ++ rest)).map (Word.push '{') = _
    rw [List.append_assoc, braced_append_of_balanced _ h hl, List.singleton_append]
    simp only [braced, Option.map_map]
    refine congrArg (Option.map · (braced depth rest)) (funext fun r => ?_)
    simp [Word.push]
  bracketed depth braces rest := by
    show (bracketed depth (braces + 1 + 0) (cs ++ ['}'] ++ rest)).map (Word.push '{') = _
    rw [List.append_assoc, bracketed_append_of_balanced _ h hl, List.singleton_append]
    simp only [bracketed, Option.map_map, Nat.add_sub_cancel]
    refine congrArg (Option.map · (bracketed depth braces rest)) (funext fun r => ?_)
    simp [Word.push]

theorem enclosable_escapeAll (cs : List Char) : Enclosable (escapeAll cs) := by
  have hall (ds : List Char) : Enclosable (ds.flatMap escape) :=
    enclosable_flatMap escape fun c _ => enclosable_escape c
  obtain ⟨ds, rfl, he⟩ | ⟨-, he⟩ := escapeAll_eq cs
  · rw [he]
    exact (enclosable_backslash '#').append (hall ds)
  · rw [he]
    exact hall cs

theorem enclosable_quoteChars (cs : List Char) : Enclosable (quoteChars cs) := by
  obtain ⟨-, hs, -, hq⟩ | ⟨hb, hl, hq⟩ | ⟨-, hq⟩ := quoteChars_cases cs
  · rw [hq, ← List.flatMap_singleton' cs]
    exact enclosable_flatMap _ fun c hc => enclosable_of_not_isSpecial (hs c hc)
  · rw [hq]
    exact enclosable_braces hb hl
  · rw [hq]
    exact enclosable_escapeAll cs

theorem enclosable_merge (items : List String) : Enclosable (merge items).toList := by
  rw [toList_merge]
  induction items.map String.toList with
  | nil => exact enclosable_nil
  | cons cs items ih =>
    cases items with
    | nil =>
      rw [List.map_singleton, List.intercalate_singleton]
      exact enclosable_quoteChars cs
    | cons ds items =>
      rw [List.map_cons, List.map_cons, List.intercalate_cons_cons, ← List.map_cons]
      exact ((enclosable_quoteChars cs).append (enclosable_plain (by decide))).append ih

/-! ## Scripts -/

/-- A text that is read as one word up to its end, and ends in no blank, is a script of one command
with this word. -/
theorem parse_of_read {f : Substitutions} {cs : List Char} {c : Char} {w : Word}
    (hs : Dialect.script.endsWord (cs ++ [c]) = false) (hh : (cs ++ [c]).head? ≠ some '#')
    (hc : Text.isBlank c = false) (h : Word.read .script f (cs ++ [c]) = .ok ⟨w, cs ++ [c], []⟩) :
    Script.parse f (.ofList (cs ++ [c])) = .ok [⟨[w], 1, .ofList (cs ++ [c])⟩] := by
  have hnil : readAll .script f [] = .ok ⟨[], [], []⟩ := by
    rw [readAll_eq]
    rfl
  have hread : readAll .script f (cs ++ [c]) = .ok ⟨[w], cs ++ [c], []⟩ := by
    rw [readAll_eq, Dialect.splitSpace_of_not_endsWord hs, if_neg (Bool.eq_false_iff.1 hs), h]
    simp only [Except.bind, hnil, Except.map, Reading.andThen, Reading.after, List.append_nil,
      List.nil_append]
  rw [parse_of_readAll hs hh hread, trimEnd_concat cs hc]

theorem parse_in_braces (f : Substitutions) {e : List Char} (he : Enclosable e) :
    Script.parse f (.ofList ('{' :: e ++ ['}'])) =
      .ok [⟨[ofText (.ofList e)], 1, .ofList ('{' :: e ++ ['}'])⟩] := by
  have hb : braced 0 (e ++ ['}']) = some (e, []) := by
    rw [he.braced]
    simp [braced]
  refine parse_of_read (endsWord_open _) (by simp) (by decide) ?_
  rw [List.cons_append, Word.read, hb]
  rfl

theorem parse_in_brackets {f : Substitutions} (hf : f.ofCommands = true) {e : List Char}
    (he : Enclosable e) :
    Script.parse f (.ofList ('[' :: e ++ [']'])) =
      .ok [⟨[⟨[.script (.ofList e)]⟩], 1, .ofList ('[' :: e ++ [']'])⟩] := by
  have hb : bracketed 0 0 (e ++ [']']) = some (e, []) := by
    rw [he.bracketed]
    simp [bracketed]
  have hatom : Word.atom f '[' (e ++ [']']) =
      .ok ⟨[.script (.ofList e)], '[' :: (e ++ [']']), []⟩ := by
    simp [Word.atom, Word.atomTail, Word.scriptSource, hf, hb, Except.map, Reading.after]
  have hs : Dialect.script.endsWord ('[' :: (e ++ [']'])) = false := by
    rw [endsWord_cons (by decide)]
    rfl
  refine parse_of_read hs (by simp) (by decide) ?_
  rw [read_of_atomsUntil (by simp), List.cons_append, atomsUntil_of_atom hs hatom,
    atomsUntil_of_stop f (.inl rfl)]
  simp only [Except.map, Reading.andThen, Reading.map, List.append_nil]
  rfl

/-- Between two braces a written list is a script of one command, a word of one piece with the text
of the list, whatever substitutions are recognised. Between two brackets it is a script of one
command, a word whose one piece is the script that is the text of the list, if the substitution of
commands is recognised. -/
theorem merged_lists_are_embedded (items : List String) (f : Substitutions) :
    Script.parse f ("\x7b" ++ merge items ++ "\x7d") =
        .ok [⟨[⟨[.text (merge items)]⟩], 1, "\x7b" ++ merge items ++ "\x7d"⟩] ∧
      (f.ofCommands = true →
        Script.parse f ("[" ++ merge items ++ "]") =
          .ok [⟨[⟨[.script (merge items)]⟩], 1, "[" ++ merge items ++ "]"⟩]) := by
  have he := enclosable_merge items
  have hbraces : "\x7b" ++ merge items ++ "\x7d" =
      .ofList ('{' :: (merge items).toList ++ ['}']) :=
    String.toList_injective (by simp)
  have hbrackets : "[" ++ merge items ++ "]" = .ofList ('[' :: (merge items).toList ++ [']']) :=
    String.toList_injective (by simp)
  refine ⟨?_, fun hf => ?_⟩
  · rw [hbraces, parse_in_braces f he, String.ofList_toList]
    rfl
  · rw [hbrackets, parse_in_brackets hf he, String.ofList_toList]

theorem merged_lists_are_embedded_brackets :
    Substitutions.all.ofCommands = true ∧
      merge ["] \x7b[\x7d", "\x7d]"] = "\x7b] \x7b[\x7d\x7d \\\x7d\\]" ∧
      Script.parse .all "[\x7b] \x7b[\x7d\x7d \\\x7d\\]]" =
        .ok [⟨[⟨[.script "\x7b] \x7b[\x7d\x7d \\\x7d\\]"]⟩], 1,
          "[\x7b] \x7b[\x7d\x7d \\\x7d\\]]"⟩] := by
  have hm : merge ["] \x7b[\x7d", "\x7d]"] = "\x7b] \x7b[\x7d\x7d \\\x7d\\]" := by
    decide +kernel
  have hf : Substitutions.all.ofCommands = true := rfl
  have hp := (merged_lists_are_embedded ["] \x7b[\x7d", "\x7d]"] .all).2 hf
  rw [hm] at hp
  exact ⟨hf, hm, hp⟩

end Ensembles
