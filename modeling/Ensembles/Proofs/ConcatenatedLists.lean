import Ensembles.Evaluation
import Ensembles.Proofs.LocalAtoms
import Mathlib.Data.List.Basic
import Mathlib.Data.List.Induction

/-!
# Concatenated lists

The command `concat` takes the blanks off the ends of its arguments and puts a space between those
that are left. Of a written list that takes something off in one case only: a last element that is
written with backslashes and ends in a blank has that blank after its last backslash
(`EndsProtected`). What is left then reads back as another element, so written lists are
concatenated as lists exactly if none of them ends in such an element
(`concatenation_reads_back_iff`).
-/

namespace Ensembles

open Text (isBlank trim trimEnd)
open Word (atomsUntil readAll ofText)
open ListText (balanced escape escapeAll isSpecial merge quote quoteChars split)

/-! ## Blanks at the end -/

theorem trimEnd_append {cs t : List Char} (h : trimEnd t ≠ []) :
    trimEnd (cs ++ t) = cs ++ trimEnd t := by
  have ht : ¬ (t.reverse.dropWhile isBlank).isEmpty = true := by
    rw [List.isEmpty_iff]
    exact fun hn => h (List.reverse_eq_nil_iff.2 hn)
  rw [trimEnd, List.reverse_append, List.dropWhile_append, if_neg ht, List.reverse_append,
    List.reverse_reverse, trimEnd]

theorem trimEnd_concat {c : Char} (cs : List Char) (h : isBlank c = false) :
    trimEnd (cs ++ [c]) = cs ++ [c] := by
  simp [trimEnd, h]

/-- The element is written with backslashes, the last of them before a blank at its end. -/
def EndsProtected (cs : List Char) : Prop :=
  balanced 0 cs = false ∧
    ∃ b, cs.getLast? = some b ∧ isBlank b = true ∧ b ∉ ['\n', '\t', '\r']

theorem escape_blank {b : Char} (hb : isBlank b = true) (hn : b ∉ ['\n', '\t', '\r']) :
    escape b = ['\\', b] := by
  simp only [List.mem_cons, List.not_mem_nil, or_false, not_or] at hn
  have hspecial : isSpecial b = true := by rw [isSpecial, hb, Bool.true_or]
  rw [escape, if_neg hn.1, if_neg hn.2.1, if_neg hn.2.2, if_pos hspecial]

/-- What is written for a character ends in a blank only if that is the character itself. -/
theorem escape_end (b : Char) :
    (isBlank b = true ∧ b ∉ ['\n', '\t', '\r']) ∨
      ∃ ds c, escape b = ds ++ [c] ∧ isBlank c = false := by
  unfold escape
  split
  · exact .inr ⟨['\\'], 'n', rfl, by decide⟩
  split
  · exact .inr ⟨['\\'], 't', rfl, by decide⟩
  split
  · exact .inr ⟨['\\'], 'r', rfl, by decide⟩
  rename_i hn ht hr
  cases hb : isBlank b with
  | true => exact .inl ⟨rfl, by simp [hn, ht, hr]⟩
  | false =>
    split
    · exact .inr ⟨['\\'], b, rfl, hb⟩
    · exact .inr ⟨[], b, rfl, hb⟩

theorem escapeAll_concat (us : List Char) (b : Char) :
    ∃ ds, escapeAll (us ++ [b]) = ds ++ escape b ∧ (b ≠ '#' → ds = escapeAll us) := by
  cases us with
  | nil =>
    by_cases hb : b = '#'
    · subst hb
      exact ⟨['\\'], rfl, fun h => absurd rfl h⟩
    · refine ⟨[], ?_, fun _ => rfl⟩
      rw [List.nil_append, ListText.escapeAll.eq_2 [b] fun _ he => hb (List.cons.inj he).1,
        List.flatMap_singleton, List.nil_append]
  | cons c us =>
    refine ⟨escapeAll (c :: us), ?_, fun _ => rfl⟩
    by_cases hc : c = '#'
    · subst hc
      simp only [List.cons_append, escapeAll, List.flatMap_append, List.flatMap_singleton]
    · rw [List.cons_append, ListText.escapeAll.eq_2 _ fun _ he => hc (List.cons.inj he).1,
        ListText.escapeAll.eq_2 _ fun _ he => hc (List.cons.inj he).1, ← List.cons_append,
        List.flatMap_append, List.flatMap_singleton]

/-- An element that ends in a blank is written in braces or with backslashes. -/
theorem quoteChars_concat_blank {b : Char} (us : List Char) (hb : isBlank b = true) :
    quoteChars (us ++ [b]) =
      if balanced 0 (us ++ [b]) then '{' :: (us ++ [b]) ++ ['}'] else escapeAll (us ++ [b]) := by
  have hspecial : (us ++ [b]).any isSpecial = true := by
    rw [List.any_append, List.any_cons, isSpecial, hb]
    simp
  have hlast : (us ++ [b]).getLast? ≠ some '\\' := by
    rw [List.getLast?_concat]
    rintro ⟨⟩
    revert hb
    decide
  rw [quoteChars, if_neg (by simp), if_neg (by simp [hspecial])]
  simp only [hlast, ne_eq, not_false_eq_true, decide_true, Bool.and_true]

theorem quoteChars_of_endsProtected {cs : List Char} (h : EndsProtected cs) :
    ∃ us b, cs = us ++ [b] ∧ isBlank b = true ∧ quoteChars cs = escapeAll us ++ ['\\', b] := by
  obtain ⟨hbal, b, hl, hb, hn⟩ := h
  obtain ⟨us, rfl⟩ := List.getLast?_eq_some_iff.1 hl
  obtain ⟨ds, hds, hus⟩ := escapeAll_concat us b
  refine ⟨us, b, rfl, hb, ?_⟩
  rw [quoteChars_concat_blank us hb, hbal, if_neg Bool.false_ne_true, hds,
    hus (by rintro rfl; revert hb; decide), escape_blank hb hn]

theorem quoteChars_of_not_endsProtected {cs : List Char} (h : ¬ EndsProtected cs) :
    ∃ ds c, quoteChars cs = ds ++ [c] ∧ isBlank c = false := by
  rcases List.eq_nil_or_concat' cs with rfl | ⟨us, b, rfl⟩
  · exact ⟨['{'], '}', rfl, by decide⟩
  obtain ⟨-, hs, -, hq⟩ | ⟨-, -, hq⟩ | ⟨-, hq⟩ := quoteChars_cases (us ++ [b])
  · have hb := hs b (List.mem_append_right _ (List.mem_singleton_self b))
    rw [isSpecial, Bool.or_eq_false_iff] at hb
    exact ⟨us, b, hq, hb.1⟩
  · exact ⟨_, _, hq, by decide⟩
  obtain ⟨ds, hds, -⟩ := escapeAll_concat us b
  obtain ⟨hb, hn⟩ | ⟨es, c, he, hc⟩ := escape_end b
  · have hbal : balanced 0 (us ++ [b]) = true := by
      by_contra hbal
      exact h ⟨Bool.eq_false_iff.2 hbal, b, List.getLast?_concat .., hb, hn⟩
    rw [quoteChars_concat_blank us hb, if_pos hbal]
    exact ⟨_, _, rfl, by decide⟩
  · exact ⟨ds ++ es, c, by rw [hq, hds, he, List.append_assoc], hc⟩

/-- Of a written element at most a blank at its end is taken off, which a backslash protects. -/
theorem trimEnd_quoteChars (cs : List Char) :
    (EndsProtected cs ∧ ∃ us b, cs = us ++ [b] ∧ isBlank b = true ∧
      trimEnd (quoteChars cs) = escapeAll us ++ ['\\']) ∨
      (¬ EndsProtected cs ∧ trimEnd (quoteChars cs) = quoteChars cs) := by
  by_cases h : EndsProtected cs
  · obtain ⟨us, b, rfl, hb, hq⟩ := quoteChars_of_endsProtected h
    refine .inl ⟨h, us, b, rfl, hb, ?_⟩
    rw [hq, List.append_cons, Text.trimEnd_append_blank _ hb, trimEnd_concat _ (by decide)]
  · obtain ⟨ds, c, hq, hc⟩ := quoteChars_of_not_endsProtected h
    exact .inr ⟨h, by rw [hq, trimEnd_concat _ hc]⟩

theorem trimEnd_quoteChars_ne_nil (cs : List Char) : trimEnd (quoteChars cs) ≠ [] := by
  obtain ⟨-, us, b, -, -, hq⟩ | ⟨-, hq⟩ := trimEnd_quoteChars cs
  · rw [hq]
    exact List.append_ne_nil_of_right_ne_nil _ (by simp)
  · rw [hq]
    intro h
    have hends := endsWord_quoteChars .list cs []
    rw [h] at hends
    cases hends

/-! ## Reading written elements one by one -/

theorem map_append_eq_ok_iff {ε α : Type} {x : Except ε (List α)} {items l : List α} :
    x.map (items ++ ·) = .ok (items ++ l) ↔ x = .ok l := by
  cases x with
  | error e => exact ⟨nofun, nofun⟩
  | ok l' => simp only [Except.map, Except.ok.injEq, List.append_cancel_left_eq]

theorem dropWhile_of_not_endsWord {cs : List Char} (h : Dialect.list.endsWord cs = false) :
    cs.dropWhile isBlank = cs := by
  cases cs with
  | nil => rfl
  | cons c cs =>
    refine List.dropWhile_cons_of_neg fun hc => ?_
    rw [endsWord_of_isSpace (d := .list) hc] at h
    cases h

theorem split_quoteChars (s : String) {t : List Char} (ht : Dialect.list.endsWord t = true) :
    split (.ofList (quoteChars s.toList ++ t)) = (split (.ofList t)).map (s :: ·) := by
  rw [split, split, String.toList_ofList, String.toList_ofList, readAll_quoteChars rfl _ ht,
    String.ofList_toList]
  cases readAll .list .escapes t with
  | error e => rfl
  | ok r => simp only [Except.map, List.map_cons, literal_ofText]

theorem split_space (t : List Char) : split (.ofList (' ' :: t)) = split (.ofList t) := by
  rw [split, split, String.toList_ofList, String.toList_ofList,
    readAll_space (d := .list) t (by decide)]
  cases readAll .list .escapes t <;> rfl

/-- The elements of a list as text, with a space behind each. -/
def spaced (items : List String) : List Char :=
  items.flatMap fun s => quoteChars s.toList ++ [' ']

theorem split_spaced (items : List String) (t : List Char) :
    split (.ofList (spaced items ++ t)) = (split (.ofList t)).map (items ++ ·) := by
  induction items with
  | nil => cases h : split (.ofList t) <;> simp [spaced, h, Except.map]
  | cons s items ih =>
    have hcons : spaced (s :: items) ++ t = quoteChars s.toList ++ ' ' :: (spaced items ++ t) := by
      simp [spaced]
    rw [hcons, split_quoteChars s (endsWord_space _), split_space, ih]
    cases split (.ofList t) <;> rfl

theorem endsWord_spaced (items : List String) {t : List Char}
    (h : Dialect.list.endsWord t = false) : Dialect.list.endsWord (spaced items ++ t) = false := by
  cases items with
  | nil => exact h
  | cons s items =>
    rw [spaced, List.flatMap_cons, List.append_assoc, List.append_assoc]
    exact endsWord_quoteChars ..

theorem toList_merge_concat (items : List String) (item : String) :
    (merge (items ++ [item])).toList = spaced items ++ quoteChars item.toList := by
  induction items using List.reverseRecOn generalizing item with
  | nil => rw [List.nil_append, merge_singleton, toList_quote]; rfl
  | append_singleton items s ih =>
    rw [merge_concat (by simp), String.toList_append, String.toList_append, ih, toList_quote]
    simp [spaced]

/-! ## Elements that are cut short -/

/-- The text `t` with a space in front, if there is any. -/
def spaceBefore (t : List Char) : List Char := if t = [] then [] else ' ' :: t

theorem endsWord_spaceBefore (d : Dialect) (t : List Char) : d.endsWord (spaceBefore t) = true := by
  unfold spaceBefore
  split
  · rfl
  · exact endsWord_space t

theorem split_spaceBefore (t : List Char) :
    split (.ofList (spaceBefore t)) = split (.ofList t) := by
  unfold spaceBefore
  split
  · rename_i h; rw [h]
  · exact split_space t

theorem endsWord_cut (us t : List Char) :
    Dialect.list.endsWord (escapeAll us ++ '\\' :: spaceBefore t) = false := by
  refine endsWord_escapeAll _ fun _ => ?_
  unfold spaceBefore
  split
  · decide
  · exact endsWord_backslash (by decide)

theorem Atom.toList_source_ne_nil (a : Atom) : a.source.toList ≠ [] := by
  cases a <;> simp [Atom.source]

/-- What a backslash at the end of an element makes, and what it makes with a space and other text
after it, is not a blank. -/
theorem join_source_ne {t : List Char} {b : Char} {r : Reading (List Atom)} (hb : isBlank b = true)
    (ht : t ≠ [] → Dialect.list.endsWord t = false)
    (h : atomsUntil .escapes Dialect.list.endsWord ('\\' :: spaceBefore t) = .ok r) :
    String.join (r.value.map Atom.source) ≠ .ofList [b] := by
  by_cases hn : t = []
  · -- The backslash is the last character and stands for itself.
    subst hn
    obtain ⟨q, r', hq, hr', rfl⟩ := atomsUntil_eq_ok (by decide) h
    have hatom : Word.atomTail .escapes '\\' (spaceBefore []) = .ok ⟨[.char '\\'], [], []⟩ := rfl
    rw [hatom] at hq
    cases hq
    rw [atomsUntil] at hr'
    cases hr'
    intro he
    obtain rfl : '\\' = b := by
      simpa [Reading.andThen, Reading.after, Atom.source] using congrArg String.toList he
    revert hb
    decide
  · -- The backslash protects the space, and the word goes on into `t`.
    rw [spaceBefore, if_neg hn] at h
    have henc : Encodes .list .escapes ['\\', ' '] ' ' := encodes_escape rfl ' '
    have happ := atomsUntil_of_encodes henc t
    rw [List.cons_append, List.singleton_append, h] at happ
    obtain ⟨q, hq, rfl⟩ := exists_of_map_eq_ok happ.symm
    obtain ⟨a, as, hv⟩ := List.exists_cons_of_ne_nil (atomsUntil_value_ne_nil hn (ht hn) hq)
    intro he
    have he := congrArg String.toList he
    rw [hv, List.map_cons, List.map_cons, String.join_cons, String.join_cons, String.toList_append,
      String.toList_append, String.toList_ofList, Atom.source, String.toList_singleton,
      List.singleton_append] at he
    exact Atom.toList_source_ne_nil a (List.append_eq_nil_iff.1 (List.cons.inj he).2).1

/-- Without the blank that its last backslash protects an element reads back as another one. -/
theorem split_cut_ne (us : List Char) {t : List Char} {b : Char} (hb : isBlank b = true)
    (ht : t ≠ [] → Dialect.list.endsWord t = false) (items : List String) :
    split (.ofList (escapeAll us ++ '\\' :: spaceBefore t)) ≠
      .ok (.ofList (us ++ [b]) :: items) := by
  have hends := endsWord_cut us t
  have hhead : ∀ c, (escapeAll us ++ '\\' :: spaceBefore t).head? = some c → c ≠ '{' ∧ c ≠ '"' := by
    refine head?_escapeAll_ne fun _ c hc => ?_
    cases hc
    decide
  rw [split, String.toList_ofList, readAll_eq, Dialect.splitSpace_of_not_endsWord hends,
    if_neg (Bool.eq_false_iff.1 hends), read_of_atomsUntil hhead, atomsUntil_escapeAll rfl]
  cases hq : atomsUntil .escapes Dialect.list.endsWord ('\\' :: spaceBefore t) with
  | error e =>
    intro h
    cases h
  | ok q =>
    simp only [Except.map, Reading.map, Except.bind]
    cases readAll .list .escapes q.rest with
    | error e =>
      intro h
      cases h
    | ok r =>
      intro h
      refine join_source_ne hb ht hq ?_
      have hw := (List.cons.inj (Except.ok.inj h)).1
      have hus : String.join ((us.map Atom.char).map Atom.source) = .ofList us := by
        rw [← Word.literal_ofQuoted, Word.ofQuoted_chars, literal_ofText]
      rw [Word.literal_ofAtoms, List.map_append, String.join_append, hus,
        String.ofList_append] at hw
      have hw := congrArg String.toList hw
      rw [String.toList_append, String.toList_append] at hw
      exact String.toList_inj.1 (List.append_cancel_left hw)

/-! ## Concatenating -/

/-- The text that `concat` makes of written lists. -/
def concatenated (lists : List (List String)) : String :=
  " ".intercalate (((lists.map merge).map Run.trimmed).filter (· ≠ ""))

theorem toList_intercalate_cons (s : String) {texts : List String} (h : ∀ t ∈ texts, t ≠ "") :
    (" ".intercalate (s :: texts)).toList =
      s.toList ++ spaceBefore (" ".intercalate texts).toList := by
  induction texts generalizing s with
  | nil => simp [spaceBefore]
  | cons t texts ih =>
    obtain ⟨ht, htexts⟩ := List.forall_mem_cons.1 h
    have hne : (" ".intercalate (t :: texts)).toList ≠ [] := by
      rw [ih t htexts]
      exact List.append_ne_nil_of_left_ne_nil (fun h => ht (String.toList_eq_nil_iff.1 h)) _
    rw [spaceBefore, if_neg hne, String.toList_intercalate, String.toList_intercalate,
      List.map_cons, List.map_cons, List.intercalate_cons_cons, List.append_assoc]
    rfl

theorem trimmed_merge (items : List String) (item : String) :
    Run.trimmed (merge (items ++ [item])) =
      .ofList (spaced items ++ trimEnd (quoteChars item.toList)) := by
  have hends := endsWord_spaced items (endsWord_quoteChars .list item.toList [])
  rw [List.append_nil] at hends
  rw [Run.trimmed, trim, toList_merge_concat, dropWhile_of_not_endsWord hends,
    trimEnd_append (trimEnd_quoteChars_ne_nil _)]

theorem concatenated_nil_cons (lists : List (List String)) :
    concatenated ([] :: lists) = concatenated lists := rfl

/-- The last element of a list may be cut short, the others are kept. -/
theorem toList_concatenated_cons (items : List String) (item : String)
    (lists : List (List String)) :
    (concatenated ((items ++ [item]) :: lists)).toList =
      spaced items ++ (trimEnd (quoteChars item.toList) ++
        spaceBefore (concatenated lists).toList) := by
  have hne : Run.trimmed (merge (items ++ [item])) ≠ "" := by
    rw [trimmed_merge]
    intro he
    exact trimEnd_quoteChars_ne_nil _ (List.append_eq_nil_iff.1 (String.ofList_eq_empty_iff.1 he)).2
  rw [concatenated, List.map_cons, List.map_cons, List.filter_cons_of_pos (by simpa using hne),
    toList_intercalate_cons _ fun t ht => by simpa using (List.mem_filter.1 ht).2, trimmed_merge,
    String.toList_ofList, List.append_assoc]
  rfl

theorem endsWord_concatenated (lists : List (List String))
    (h : (concatenated lists).toList ≠ []) :
    Dialect.list.endsWord (concatenated lists).toList = false := by
  induction lists with
  | nil => exact absurd rfl h
  | cons items lists ih =>
    rcases List.eq_nil_or_concat' items with rfl | ⟨items, item, rfl⟩
    · exact ih h
    rw [toList_concatenated_cons]
    refine endsWord_spaced items ?_
    obtain ⟨-, us, b, -, -, hq⟩ | ⟨-, hq⟩ := trimEnd_quoteChars item.toList
    · rw [hq, List.append_assoc]
      exact endsWord_cut us _
    · rw [hq]
      exact endsWord_quoteChars ..

theorem split_concatenated_iff (lists : List (List String)) :
    split (concatenated lists) = .ok lists.flatten ↔
      ∀ items ∈ lists, ∀ item ∈ items.getLast?, ¬ EndsProtected item.toList := by
  induction lists with
  | nil => exact ⟨fun _ => nofun, fun _ => split_merge []⟩
  | cons items lists ih =>
    rcases List.eq_nil_or_concat' items with rfl | ⟨items, item, rfl⟩
    · rw [concatenated_nil_cons, List.flatten_cons, List.nil_append, ih, List.forall_mem_cons]
      exact (and_iff_right nofun).symm
    rw [← String.ofList_toList (s := concatenated _), toList_concatenated_cons, split_spaced,
      List.forall_mem_cons, List.getLast?_concat, List.flatten_cons, List.append_assoc,
      map_append_eq_ok_iff]
    obtain ⟨hp, us, b, hitem, hb, hq⟩ | ⟨hp, hq⟩ := trimEnd_quoteChars item.toList
    · have hcut := split_cut_ne us hb (endsWord_concatenated lists) lists.flatten
      rw [← hitem, String.ofList_toList] at hcut
      rw [hq, List.append_assoc]
      exact ⟨fun h => absurd h hcut, fun h => absurd hp (h.1 item rfl)⟩
    · rw [hq, split_quoteChars item (endsWord_spaceBefore _ _), split_spaceBefore,
        String.ofList_toList]
      show Except.map ([item] ++ ·) _ = _ ↔ _
      rw [map_append_eq_ok_iff, ih]
      exact (and_iff_right fun _ h => Option.some.inj h ▸ hp).symm

/-- Written lists that the builtin `concat` is applied to give a text that reads back as their
elements, one list after another, if and only if no list ends in an element that is written with
backslashes and ends in a blank which is written as itself. -/
theorem concatenation_reads_back_iff (deeper : Deeper) (lists : List (List String)) :
    ∃ text, Run.builtin deeper .concat (lists.map merge) = pure (.normal text) ∧
      (split text = .ok lists.flatten ↔
        ∀ items ∈ lists, ∀ item ∈ items.getLast?, ¬ EndsProtected item.toList) :=
  ⟨concatenated lists, rfl, split_concatenated_iff lists⟩

/-- The blank at the end of an element that is a closing brace and a blank is cut off, and the space
after it taken for it. -/
theorem concatenation_merges_elements :
    ∃ text, Run.builtin (perform 0) .concat ([["\x7d "], ["a"]].map merge) = pure (.normal text) ∧
      text = "\\\x7d\\ a" ∧ split text = .ok ["\x7d a"] ∧
      split text ≠ .ok [["\x7d "], ["a"]].flatten := by
  refine ⟨concatenated [["\x7d "], ["a"]], rfl, ?_, ?_, ?_⟩ <;> decide +kernel

end Ensembles
