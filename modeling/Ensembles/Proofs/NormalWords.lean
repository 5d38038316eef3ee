import Ensembles.Proofs.LocalWords
import Ensembles.Script
import Mathlib.Data.List.Chain

/-!
# The form of words

Every word that is read has at least one piece, no two texts side by side, and no empty text beside
other pieces (`Word.Normal`); an empty word stands for nothing but `{}` and `""`
(`Word.read_empty`). Where no substitutions are recognised a word is one text, which is therefore
what the literal of the word gives back. `Word.read_of_mem` and `Script.readAll_of_mem` lead from
the words of a list or a script to the places where they are read; `words_are_normal` puts it
together.
-/

namespace Ensembles

open Word (atomsUntil read readAll ofText ofAtoms ofQuoted)

/-- The piece is a text. -/
def Piece.IsText : Piece → Prop
  | .text _ => True
  | _ => False

/-- The pieces may stand side by side. -/
def Piece.Apart (p q : Piece) : Prop := ¬ (p.IsText ∧ q.IsText)

/-- There is a piece, no two texts stand side by side, and an empty text stands only alone. -/
structure Word.Normal (w : Word) : Prop where
  ne_nil : w.pieces ≠ []
  apart : w.pieces.IsChain Piece.Apart
  filled : .text "" ∈ w.pieces → w.pieces = [.text ""]

/-- The word is normal, and one text if there are no substitutions in words. -/
structure Word.NormalFor (f : Substitutions) (w : Word) : Prop where
  normal : w.Normal
  one_text : f.ofVariables = false → f.ofCommands = false → w.pieces = [.text w.literal]

/-! ## Gathering atoms -/

theorem Piece.text_nil_notMem_ofRun (run : List Char) : .text "" ∉ ofRun run := by
  cases run with
  | nil => exact List.not_mem_nil
  | cons c run => simp [ofRun, String.ext_iff]

theorem Piece.gather_ne_nil {run : List Char} {as : List Atom} (h : run ≠ [] ∨ as ≠ []) :
    gather run as ≠ [] := by
  induction as generalizing run with
  | nil =>
    obtain ⟨c, run, rfl⟩ := List.exists_cons_of_ne_nil (h.resolve_right fun hn => hn rfl)
    exact List.cons_ne_nil _ _
  | cons a as ih =>
    cases a with
    | char c => exact ih (.inl (List.cons_ne_nil _ _))
    | var | script => exact List.append_ne_nil_of_right_ne_nil _ (List.cons_ne_nil _ _)

theorem Piece.text_nil_notMem_gather (run : List Char) (as : List Atom) :
    .text "" ∉ gather run as := by
  induction as generalizing run with
  | nil => exact text_nil_notMem_ofRun run
  | cons a as ih =>
    cases a with
    | char c => exact ih (c :: run)
    | var | script => simp [gather, text_nil_notMem_ofRun, ih]

/-- A run of characters is gathered into one text, and what follows that is no text. -/
theorem Piece.isChain_gather (run : List Char) (as : List Atom) :
    (gather run as).IsChain Apart := by
  have hrun {p : Piece} (run : List Char) (hp : ¬ p.IsText) {ps : List Piece}
      (h : ps.IsChain Apart) : (ofRun run ++ p :: ps).IsChain Apart := by
    have hcons : (p :: ps).IsChain Apart := List.isChain_cons.2 ⟨fun _ _ hpq => hp hpq.1, h⟩
    cases run with
    | nil => exact hcons
    | cons c run => exact .cons_cons (fun hpq => hp hpq.2) hcons
  induction as generalizing run with
  | nil => cases run <;> simp [gather, ofRun]
  | cons a as ih =>
    cases a with
    | char c => exact ih (c :: run)
    | var name => exact hrun run id (ih [])
    | script source => exact hrun run id (ih [])

namespace Word

theorem normal_ofText (text : String) : (ofText text).Normal where
  ne_nil := List.cons_ne_nil _ _
  apart := .singleton _
  filled h := congrArg (fun p => [p]) (List.mem_singleton.1 h).symm

theorem text_nil_notMem_ofAtoms (as : List Atom) : .text "" ∉ (ofAtoms as).pieces :=
  Piece.text_nil_notMem_gather [] as

theorem normal_ofAtoms {as : List Atom} (h : as ≠ []) : (ofAtoms as).Normal where
  ne_nil := Piece.gather_ne_nil (.inr h)
  apart := Piece.isChain_gather [] as
  filled he := absurd he (text_nil_notMem_ofAtoms as)

theorem normal_ofQuoted (as : List Atom) : (ofQuoted as).Normal := by
  cases as with
  | nil => exact normal_ofText ""
  | cons a as => exact normal_ofAtoms (List.cons_ne_nil a as)

/-- Where a word can start, a bare word has atoms. -/
theorem bare_ne_nil {d : Dialect} {f : Substitutions} {cs : List Char} {r : Reading (List Atom)}
    (hs : d.endsWord cs = false) (h : atomsUntil f d.endsWord cs = .ok r) : r.value ≠ [] := by
  refine atomsUntil_value_ne_nil ?_ hs h
  rintro rfl
  cases hs

/-! ## Words of characters -/

section Characters

variable {d : Dialect} {f : Substitutions} (hv : f.ofVariables = false) (hc : f.ofCommands = false)

include hv hc

/-- Where no substitutions are recognised there are only characters. -/
theorem atomTail_chars {c : Char} {cs : List Char} {q : Reading (List Atom)}
    (h : atomTail f c cs = .ok q) : ∃ ds : List Char, q.value = ds.map .char := by
  simp only [atomTail, hv, hc, Bool.and_false, Bool.false_eq_true, if_false] at h
  split at h
  · cases h
    split
    · fun_cases escaped cs <;> exact ⟨[_], rfl⟩
    · fun_cases verbatim cs
      · exact ⟨['\\'], rfl⟩
      · exact ⟨['\\', _], rfl⟩
  · cases h
    exact ⟨[c], rfl⟩

theorem atomsUntil_chars {stop : List Char → Bool} {cs : List Char} {r : Reading (List Atom)}
    (h : atomsUntil f stop cs = .ok r) : ∃ ds : List Char, r.value = ds.map .char := by
  fun_induction atomsUntil f stop cs generalizing r with
  | case1 | case2 => cases h; exact ⟨[], rfl⟩
  | case3 => cases h
  | case4 c cs _ r' ha ih =>
    obtain ⟨r₂, hr₂, rfl⟩ := exists_of_map_eq_ok h
    obtain ⟨q, hq, rfl⟩ := atom_eq_ok ha
    obtain ⟨ds, hds⟩ := atomTail_chars hv hc hq
    obtain ⟨es, hes⟩ := ih hr₂
    refine ⟨ds ++ es, ?_⟩
    show q.value ++ r₂.value = _
    rw [hds, hes, List.map_append]

theorem read_text {cs : List Char} {r : Reading Word} (hs : d.endsWord cs = false)
    (h : read d f cs = .ok r) : ∃ text, r.value = ofText text := by
  obtain ⟨_, _, _, -, -, -, rfl⟩ | ⟨_, as, _, _, -, ha, -, rfl⟩ | ⟨r', -, ha, rfl⟩ := read_cases h
  · exact ⟨_, rfl⟩
  · obtain ⟨ds, rfl⟩ := atomsUntil_chars hv hc ha
    exact ⟨_, ofQuoted_chars ds⟩
  · obtain ⟨ds, hds⟩ := atomsUntil_chars hv hc ha
    have hne : ds ≠ [] := fun hn => bare_ne_nil hs ha (hds.trans (congrArg _ hn))
    exact ⟨_, (congrArg ofAtoms hds).trans (ofAtoms_chars hne)⟩

end Characters

/-! ## Words that are read -/

section Words

variable {d : Dialect} {f : Substitutions} {cs : List Char}

theorem normalFor_read {r : Reading Word} (hs : d.endsWord cs = false)
    (h : read d f cs = .ok r) : r.value.NormalFor f where
  normal := by
    obtain ⟨_, _, _, -, -, -, rfl⟩ | ⟨_, _, _, _, -, -, -, rfl⟩ | ⟨_, -, ha, rfl⟩ := read_cases h
    · exact normal_ofText _
    · exact normal_ofQuoted _
    · exact normal_ofAtoms (bare_ne_nil hs ha)
  one_text hv hc := by
    obtain ⟨text, ht⟩ := read_text hv hc hs h
    rw [ht, literal_ofText]
    rfl

theorem ofQuoted_empty {as : List Atom} (h : .text "" ∈ (ofQuoted as).pieces) : as = [] := by
  cases as with
  | nil => rfl
  | cons a as => exact absurd h (text_nil_notMem_ofAtoms (a :: as))

/-- An empty text is written as two braces or two quotation marks; no bare word is empty. -/
theorem read_empty {r : Reading Word} (h : read d f cs = .ok r)
    (he : .text "" ∈ r.value.pieces) : r.source = ['{', '}'] ∨ r.source = ['"', '"'] := by
  obtain ⟨_, text, _, -, -, -, rfl⟩ | ⟨ds, as, source, rest, -, ha, -, rfl⟩ | ⟨r', -, ha, rfl⟩ :=
    read_cases h
  · have ht : String.ofList text = "" := (Piece.text.inj (List.mem_singleton.1 he)).symm
    rw [String.ofList_eq_empty_iff.1 ht]
    exact .inl rfl
  · have hsource := atomsUntil_source_of_value ha (ofQuoted_empty he)
    dsimp only at hsource
    rw [hsource]
    exact .inr rfl
  · exact absurd he (text_nil_notMem_ofAtoms r'.value)

/-- The words of a sequence are words that are read where a word can start. -/
theorem read_of_mem {r : Reading (List Word)} (h : readAll d f cs = .ok r) {w : Word}
    (hw : w ∈ r.value) :
    ∃ cs' r', d.endsWord cs' = false ∧ read d f cs' = .ok r' ∧ r'.value = w := by
  fun_induction readAll d f cs generalizing r with
  | case1 => cases h; cases hw
  | case2 => cases h
  | case3 cs hs r' hr ih =>
    obtain ⟨t, ht, rfl⟩ := exists_of_map_eq_ok h
    rcases List.mem_cons.1 hw with rfl | hw
    · exact ⟨_, r', Bool.eq_false_iff.2 hs, hr, rfl⟩
    · exact ih ht hw

theorem normalFor_readAll {r : Reading (List Word)} (h : readAll d f cs = .ok r) :
    ∀ w ∈ r.value, w.NormalFor f := by
  intro w hw
  obtain ⟨cs', r', hs, hr', rfl⟩ := read_of_mem h hw
  exact normalFor_read hs hr'

end Words

/-- Words without substitutions are given back by their literals. -/
theorem ofText_literals {f : Substitutions} (hv : f.ofVariables = false)
    (hc : f.ofCommands = false) {ws : List Word} (h : ∀ w ∈ ws, w.NormalFor f) :
    (ws.map literal).map ofText = ws := by
  rw [List.map_map]
  refine (List.map_congr_left fun w hw => ?_).trans (List.map_id ws)
  have hp := (h w hw).one_text hv hc
  obtain ⟨pieces⟩ := w
  exact congrArg Word.mk hp.symm

end Word

/-- The words of the commands of a script are words that are read from it. -/
theorem Script.readAll_of_mem {f : Substitutions} {line : Nat} {cs : List Char}
    {commands : List Command} (h : commandsFrom f line cs = .ok commands) {c : Command}
    (hc : c ∈ commands) : ∃ cs' r, readAll .script f cs' = .ok r ∧ r.value = c.words := by
  fun_induction commandsFrom f line cs generalizing commands with
  | case1 => cases h; cases hc
  | case2 => cases h
  | case3 line cs hg r hr first =>
    rename_i ih
    obtain ⟨later, hlater, rfl⟩ := exists_of_map_eq_ok h
    rcases List.mem_cons.1 hc with rfl | hc
    · exact ⟨_, r, hr, rfl⟩
    · exact ih hlater hc

theorem Script.normalFor_parse {f : Substitutions} {source : String} {commands : List Command}
    (h : parse f source = .ok commands) : ∀ c ∈ commands, ∀ w ∈ c.words, w.NormalFor f := by
  intro c hc
  obtain ⟨_, r, hr, hw⟩ := readAll_of_mem h hc
  exact hw ▸ Word.normalFor_readAll hr

/-- Every word that is read, in a list or in a script and whatever substitutions are recognised, is
normal, and one text if no variables and no commands are; where it has an empty text it is written
as two braces or two quotation marks. So are the words of any list and of any script, and nothing is
lost when the elements of a list and the words of a declaration body are taken for their
literals. -/
theorem words_are_normal (f : Substitutions) :
    (∀ {d cs r}, d.endsWord cs = false → read d f cs = .ok r → r.value.NormalFor f ∧
      (.text "" ∈ r.value.pieces → r.source = ['{', '}'] ∨ r.source = ['"', '"'])) ∧
    (∀ {d cs r}, readAll d f cs = .ok r → ∀ w ∈ r.value, w.NormalFor f) ∧
    (∀ {source commands}, Script.parse f source = .ok commands →
      ∀ c ∈ commands, ∀ w ∈ c.words, w.NormalFor f) ∧
    (∀ {text items}, ListText.split text = .ok items →
      ∃ r, readAll .list .escapes text.toList = .ok r ∧ r.value = items.map ofText) ∧
    ∀ {body commands}, Script.parse .escapes body = .ok commands →
      ∀ c ∈ commands, c.words = (c.words.map Word.literal).map ofText := by
  refine ⟨fun hs h => ⟨Word.normalFor_read hs h, Word.read_empty h⟩, Word.normalFor_readAll,
    Script.normalFor_parse, fun h => ?_, fun h c hc => ?_⟩
  · obtain ⟨r, hr, rfl⟩ := exists_of_map_eq_ok h
    exact ⟨r, hr, (Word.ofText_literals rfl rfl (Word.normalFor_readAll hr)).symm⟩
  · exact (Word.ofText_literals rfl rfl (Script.normalFor_parse h c hc)).symm

theorem words_are_normal_mixed :
    (Dialect.script.endsWord ['"', '"'] = false ∧
      read .script .all ['"', '"'] = .ok ⟨ofText "", ['"', '"'], []⟩ ∧
      (ofText "").NormalFor .all) ∧
    (Script.parse .all "f a\\ $x[g]b\\" =
        .ok [⟨[ofText "f", ⟨[.text "a ", .var "x", .script "g", .text "b\\"]⟩], 1,
          "f a\\ $x[g]b\\"⟩] ∧
      Word.NormalFor .all ⟨[.text "a ", .var "x", .script "g", .text "b\\"]⟩) ∧
    (ListText.split "$x [g] \"\"" = .ok ["$x", "[g]", ""] ∧
      ∃ r, readAll .list .escapes "$x [g] \"\"".toList = .ok r ∧
        r.value = [ofText "$x", ofText "[g]", ofText ""] ∧ ∀ w ∈ r.value, w.NormalFor .escapes) ∧
    Script.parse .escapes "part $x" = .ok [⟨[ofText "part", ofText "$x"], 1, "part $x"⟩] ∧
      [ofText "part", ofText "$x"] = ["part", "$x"].map ofText := by
  have hread : read .script .all ['"', '"'] = .ok ⟨ofText "", ['"', '"'], []⟩ := by
    simp [Word.read, atomsUntil, Word.atQuote, Word.ending, Dialect.endsWord, ofQuoted]
  have hparse : Script.parse .all "f a\\ $x[g]b\\" =
      .ok [⟨[ofText "f", ⟨[.text "a ", .var "x", .script "g", .text "b\\"]⟩], 1,
        "f a\\ $x[g]b\\"⟩] := by
    decide +kernel
  have hsplit : ListText.split "$x [g] \"\"" = .ok ["$x", "[g]", ""] := by
    decide +kernel
  have hbody : Script.parse .escapes "part $x" =
      .ok [⟨[ofText "part", ofText "$x"], 1, "part $x"⟩] := by
    decide +kernel
  obtain ⟨hword, -, hscript, -⟩ := words_are_normal .all
  obtain ⟨-, hlist, -, hitems, hdeclared⟩ := words_are_normal .escapes
  obtain ⟨r, hr, hv⟩ := hitems hsplit
  have hs : Dialect.script.endsWord ['"', '"'] = false := by decide
  exact ⟨⟨hs, hread, (hword hs hread).1⟩,
    ⟨hparse, hscript hparse _ (List.mem_singleton_self _) _ (.tail _ (List.mem_singleton_self _))⟩,
    ⟨hsplit, r, hr, hv, hlist hr⟩, hbody, hdeclared hbody _ (List.mem_singleton_self _)⟩

end Ensembles
