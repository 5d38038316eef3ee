import Ensembles.Proofs.LocalAtoms

/-!
# Words are read locally

A word is read in front of any text where a word ends as it was read (`read_local`), and so is a
sequence of words, which then goes on with the words of that text (`readAll_append`). In front of a
separator or at the end of the text it does not go on (`readAll_local`).
-/

namespace Ensembles

/-! ## Words -/

section Words

variable {d : Dialect} {f : Substitutions} {cs t : List Char} {r : Reading Word}

theorem endsWord_quotationMark (cs : List Char) : d.endsWord ('"' :: cs) = false := by
  rw [endsWord_cons (by decide)]
  cases d <;> decide

theorem ending_eq_ok_iff {e : SyntaxError} {r r' : Reading Word} :
    Word.ending d e r = .ok r' ↔ d.endsWord r.rest = true ∧ r = r' := by
  unfold Word.ending
  split
  · rename_i h
    exact ⟨fun he => ⟨h, Except.ok.inj he⟩, fun he => congrArg _ he.2⟩
  · rename_i h
    exact ⟨nofun, fun he => absurd he.1 h⟩

/-- The three kinds of words, with what reading them takes. -/
theorem read_cases (h : Word.read d f cs = .ok r) :
    (∃ ds text rest, cs = '{' :: ds ∧ Word.braced 0 ds = some (text, rest) ∧
      d.endsWord rest = true ∧ r = ⟨.ofText (.ofList text), '{' :: (text ++ ['}']), rest⟩) ∨
    (∃ ds as source rest, cs = '"' :: ds ∧
      Word.atomsUntil f Word.atQuote ds = .ok ⟨as, source, '"' :: rest⟩ ∧
      d.endsWord rest = true ∧ r = ⟨.ofQuoted as, '"' :: (source ++ ['"']), rest⟩) ∨
    (∃ r', (∀ c ∈ cs.head?, c ≠ '{' ∧ c ≠ '"') ∧ Word.atomsUntil f d.endsWord cs = .ok r' ∧
      r = r'.map .ofAtoms) := by
  fun_cases Word.read d f cs with
  | case1 cs hb => simp [Word.read, hb] at h
  | case2 cs text rest hb =>
    simp only [Word.read, hb, ending_eq_ok_iff] at h
    exact .inl ⟨cs, text, rest, rfl, hb, h.1, h.2.symm⟩
  | case3 cs e ha => simp [Word.read, ha] at h
  | case4 cs as source ha => simp [Word.read, ha] at h
  | case5 cs as source q rest ha =>
    simp only [Word.read, ha, ending_eq_ok_iff] at h
    have hq : Word.atQuote (q :: rest) = true :=
      (atomsUntil_rest ha).resolve_left (List.cons_ne_nil _ _)
    obtain ⟨_, hq⟩ := atQuote_eq_true_iff.1 hq
    cases hq
    exact .inr (.inl ⟨cs, as, source, rest, rfl, ha, h.1, h.2.symm⟩)
  | case6 cs hb hq =>
    rw [Word.read.eq_3 d f cs hb hq] at h
    obtain ⟨r', ha, rfl⟩ := exists_of_map_eq_ok h
    refine .inr (.inr ⟨r', fun c hc => ?_, ha, rfl⟩)
    obtain ⟨ds, rfl⟩ := List.head?_eq_some_iff.1 hc
    exact ⟨fun he => hb ds (by rw [he]), fun he => hq ds (by rw [he])⟩

/-- A word is read up to where it ends. -/
theorem endsWord_read_rest (h : Word.read d f cs = .ok r) : d.endsWord r.rest = true := by
  obtain ⟨_, _, _, -, -, hrest, rfl⟩ | ⟨_, _, _, _, -, -, hrest, rfl⟩ | ⟨r', -, ha, rfl⟩ :=
    read_cases h
  · exact hrest
  · exact hrest
  · show d.endsWord r'.rest = true
    rcases atomsUntil_rest ha with hr | hr
    · rw [hr]
      rfl
    · exact hr

/-- A word is read in front of any text where a word ends as it was read, unless it ends in a
backslash that nothing follows. -/
theorem read_local (h : Word.read d f cs = .ok r)
    (hend : r.rest = [] → r.source.getLast? ≠ some '\\') (ht : d.endsWord t = true) :
    Word.read d f (r.source ++ t) = .ok { r with rest := t } := by
  obtain ⟨ds, text, rest, rfl, hb, -, rfl⟩ | ⟨ds, as, source, rest, rfl, ha, -, rfl⟩ |
    ⟨r', hbare, ha, rfl⟩ := read_cases h
  · simp only [List.cons_append, List.append_assoc, List.nil_append, Word.read, braced_local hb t]
    exact if_pos ht
  · have hlocal := atomsUntil_local stop_atQuote ha (fun h => absurd h (List.cons_ne_nil _ _))
      (.inr (rfl : Word.atQuote ('"' :: t) = true))
    simp only [List.cons_append, List.append_assoc, List.nil_append, Word.read, hlocal]
    exact if_pos ht
  · have hof : r'.source ++ r'.rest = cs := Word.atomsUntil_of ha
    have hbare' : ∀ c, (r'.source ++ t).head? = some c → c ≠ '{' ∧ c ≠ '"' := by
      intro c hc
      cases hsrc : r'.source with
      | nil =>
        rw [hsrc] at hc
        obtain ⟨t, rfl⟩ := List.head?_eq_some_iff.1 hc
        constructor
        · rintro rfl
          rw [endsWord_open] at ht
          cases ht
        · rintro rfl
          rw [endsWord_quotationMark] at ht
          cases ht
      | cons x source =>
        rw [hsrc] at hc hof
        exact hbare c (hof ▸ hc)
    rw [show (r'.map Word.ofAtoms).source = r'.source from rfl, read_of_atomsUntil hbare',
      atomsUntil_local (stop_endsWord d) ha hend (.inr ht)]
    rfl

/-- Where a word is read, no word ends when other text comes after it. -/
theorem endsWord_read_append (hc : d.endsWord cs = false) (h : Word.read d f cs = .ok r)
    (hend : r.rest = [] → r.source.getLast? ≠ some '\\') (t : List Char) :
    d.endsWord (r.source ++ t) = false := by
  obtain ⟨_, _, _, rfl, -, -, rfl⟩ | ⟨_, _, _, _, rfl, -, -, rfl⟩ | ⟨r', -, ha, rfl⟩ :=
    read_cases h
  · exact endsWord_open _
  · exact endsWord_quotationMark _
  · refine atomsUntil_append (stop_endsWord d) hc ?_ ha hend t
    rintro rfl
    cases hc

/-! ## Sequences of words -/

/-- Space goes on in front of any other text. -/
theorem splitSpace_local (d : Dialect) (cs t : List Char) :
    d.splitSpace ((d.splitSpace cs).1 ++ t) =
      ((d.splitSpace cs).1 ++ (d.splitSpace t).1, (d.splitSpace t).2) := by
  fun_induction Dialect.splitSpace d cs with
  | case1 | case4 => rfl
  | case2 cs ih => simp only [List.cons_append, Dialect.splitSpace, ih]
  | case3 c cs _ hc ih => rw [List.cons_append, splitSpace_of_isSpace hc, ih]; rfl

/-- Space that is not empty is space whatever follows it. -/
theorem endsWord_splitSpace_append (h : (d.splitSpace cs).1 ≠ []) (t : List Char) :
    d.endsWord ((d.splitSpace cs).1 ++ t) = true := by
  revert h
  fun_cases Dialect.splitSpace d cs with
  | case1 | case4 => exact fun h => absurd rfl h
  | case2 cs => exact fun _ => rfl
  | case3 c cs _ hc => exact fun _ => endsWord_of_isSpace hc _

/-- A word ends behind space at the end of the text or at a separator. -/
theorem isSeparator_of_endsWord (h : d.endsWord (d.splitSpace cs).2 = true) :
    (d.splitSpace cs).2 = [] ∨ ∃ c t, (d.splitSpace cs).2 = c :: t ∧ d.isSeparator c = true := by
  fun_induction Dialect.splitSpace d cs with
  | case1 => exact .inl rfl
  | case2 cs ih => exact ih h
  | case3 c cs _ _ ih => exact ih h
  | case4 c cs hn hc =>
    rw [Dialect.endsWord.eq_3 d c cs hn, Bool.or_eq_true] at h
    exact .inr ⟨c, cs, rfl, h.resolve_left hc⟩

/-- A word ends at the end of the text and at a separator, and no space is there. -/
theorem endsWord_and_splitSpace_of_isSeparator (ht : ∀ c ∈ t.head?, d.isSeparator c = true) :
    d.endsWord t = true ∧ d.splitSpace t = ([], t) := by
  cases t with
  | nil => exact ⟨rfl, rfl⟩
  | cons c t =>
    obtain ⟨rfl, rfl | rfl⟩ := eq_of_isSeparator (ht c rfl)
    · exact ⟨rfl, rfl⟩
    · exact ⟨rfl, rfl⟩

end Words

section Sequences

variable {d : Dialect} {f : Substitutions} {cs t : List Char} {r : Reading (List Word)}

/-- Words are read up to the end of the text or a separator. -/
theorem readAll_rest (h : Word.readAll d f cs = .ok r) :
    r.rest = [] ∨ ∃ c t, r.rest = c :: t ∧ d.isSeparator c = true := by
  fun_induction Word.readAll d f cs generalizing r with
  | case1 cs hs =>
    cases h
    exact isSeparator_of_endsWord hs
  | case2 => cases h
  | case3 cs _ r' hr ih =>
    obtain ⟨t, ht, rfl⟩ := exists_of_map_eq_ok h
    exact ih (r := t) ht

/-- Where a word ends, one still ends when other such text comes after the words. -/
theorem endsWord_readAll_append (hc : d.endsWord cs = true) (h : Word.readAll d f cs = .ok r)
    (ht : d.endsWord t = true) : d.endsWord (r.source ++ t) = true := by
  by_cases hs : (d.splitSpace cs).1 = []
  · have hcs := d.splitSpace_append cs
    rw [hs, List.nil_append] at hcs
    rw [readAll_eq, hcs, if_pos hc, hs] at h
    cases h
    exact ht
  · obtain ⟨source, hsrc⟩ : ∃ source, r.source = (d.splitSpace cs).1 ++ source := by
      rw [readAll_eq] at h
      split at h
      · cases h
        exact ⟨[], (List.append_nil _).symm⟩
      · cases hr : Word.read d f (d.splitSpace cs).2 with
        | error e => rw [hr] at h; cases h
        | ok r' =>
          rw [hr] at h
          obtain ⟨t', -, rfl⟩ := exists_of_map_eq_ok h
          exact ⟨_, rfl⟩
    rw [hsrc, List.append_assoc]
    exact endsWord_splitSpace_append hs _

/-- In front of text where a word ends the words are read as before, and then the words of that
text, unless the text before ends in a backslash that nothing followed. -/
theorem readAll_append (h : Word.readAll d f cs = .ok r)
    (hend : r.rest = [] → r.source.getLast? ≠ some '\\') (ht : d.endsWord t = true) :
    Word.readAll d f (r.source ++ t) = (Word.readAll d f t).map fun q =>
      ⟨r.value ++ q.value, r.source ++ q.source, q.rest⟩ := by
  fun_induction Word.readAll d f cs generalizing r with
  | case1 cs hs =>
    cases h
    exact readAll_of_splitSpace (splitSpace_local d cs t)
  | case2 => cases h
  | case3 cs hs r' hr ih =>
    obtain ⟨r₂, hr₂, rfl⟩ := exists_of_map_eq_ok h
    have hs := Bool.eq_false_iff.2 hs
    have hof : r₂.source ++ r₂.rest = r'.rest := Word.readAll_of hr₂
    have hend' : r'.rest = [] → r'.source.getLast? ≠ some '\\' := by
      intro hrest hlast
      obtain ⟨hsrc₂, hrest₂⟩ := List.append_eq_nil_iff.1 (hof.trans hrest)
      refine hend hrest₂ ?_
      simp only [Reading.after, Reading.andThen, hsrc₂, List.append_nil, List.getLast?_append,
        hlast, Option.some_or]
    have hend₂ : r₂.rest = [] → r₂.source.getLast? ≠ some '\\' :=
      fun hrest => getLast?_ne_of_append _ (getLast?_ne_of_append _ (hend hrest))
    have hnext : d.endsWord (r₂.source ++ t) = true :=
      endsWord_readAll_append (endsWord_read_rest hr) hr₂ ht
    have hword : d.endsWord (r'.source ++ (r₂.source ++ t)) = false :=
      endsWord_read_append hs hr hend' _
    have hspace := splitSpace_local d cs (r'.source ++ (r₂.source ++ t))
    show Word.readAll d f ((d.splitSpace cs).1 ++ (r'.source ++ r₂.source) ++ t) = _
    rw [List.append_assoc, List.append_assoc, readAll_of_splitSpace hspace, readAll_eq,
      d.splitSpace_of_not_endsWord hword, if_neg (Bool.eq_false_iff.1 hword),
      read_local hr hend' hnext]
    simp only [Except.bind, ih hr₂ hend₂]
    cases Word.readAll d f t with
    | error e => rfl
    | ok q =>
      simp only [Except.map, Reading.after, Reading.andThen, List.append_assoc, List.cons_append,
        List.nil_append]

/-- Words that are followed by a separator or nothing are read in front of any other separator, and
at the end of a text. -/
theorem readAll_local (h : Word.readAll d f cs = .ok r)
    (hend : r.rest = [] → t ≠ [] → r.source.getLast? ≠ some '\\')
    (ht : ∀ c ∈ t.head?, d.isSeparator c = true) :
    Word.readAll d f (r.source ++ t) = .ok { r with rest := t } := by
  by_cases hn : r.rest = [] ∧ t = []
  · obtain ⟨hr, rfl⟩ := hn
    have hof : r.source ++ r.rest = cs := Word.readAll_of h
    rw [← hr, hof, h]
  · obtain ⟨hword, hspace⟩ := endsWord_and_splitSpace_of_isSeparator ht
    have hend' : r.rest = [] → r.source.getLast? ≠ some '\\' := fun hr =>
      hend hr fun ht => hn ⟨hr, ht⟩
    have hnone : Word.readAll d f t = .ok ⟨[], [], t⟩ := by
      rw [readAll_eq, hspace, if_pos hword]
    rw [readAll_append h hend' hword, hnone]
    simp only [Except.map, List.append_nil]

end Sequences

end Ensembles
