import Ensembles.ListText

/-!
# Quoted elements read back

An element that `ListText.quoteChars` writes is read as one word, in a list as well as in
a script, whatever substitutions are recognised, as long as backslashes are:

* `read_quoteChars`: the three written forms, each followed by text that ends a word;
* `readAll_mergeChars`: the words of a whole written list;
* `split_merge`: a list is what is read back from its written form.

A bare element and one with backslashes are read atom by atom; `Encodes` says that a
piece of text makes one atom of a word and does not end it.
-/

namespace Ensembles

open Text (isBlank)
open Word (atom atomsUntil braced read readAll ofText)
open ListText (isSpecial balanced escape escapeAll quoteChars quote merge split)

theorem isBlank_of_isSpace {d : Dialect} {c : Char} (h : d.isSpace c = true) :
    isBlank c = true := by
  cases d with
  | list => exact h
  | script =>
    simp only [Dialect.isSpace, Bool.or_eq_true, beq_iff_eq] at h
    rcases h with (rfl | rfl) | rfl <;> decide

theorem isSpecial_of_isSpace {d : Dialect} {c : Char} (h : d.isSpace c = true) :
    isSpecial c = true := by
  rw [isSpecial, isBlank_of_isSpace h, Bool.true_or]

theorem eq_of_isSeparator {d : Dialect} {c : Char} (h : d.isSeparator c = true) :
    d = .script ∧ (c = '\n' ∨ c = ';') := by
  cases d with
  | list => cases h
  | script =>
    rw [Dialect.isSeparator, Bool.or_eq_true, beq_iff_eq, beq_iff_eq] at h
    exact ⟨rfl, h⟩

theorem isSpecial_of_isSeparator {d : Dialect} {c : Char} (h : d.isSeparator c = true) :
    isSpecial c = true := by
  obtain ⟨-, rfl | rfl⟩ := eq_of_isSeparator h <;> decide

theorem endsWord_cons {d : Dialect} {c : Char} (hc : c ≠ '\\') (cs : List Char) :
    d.endsWord (c :: cs) = (d.isSpace c || d.isSeparator c) :=
  Dialect.endsWord.eq_3 d c cs fun _ h => absurd h hc

theorem ne_backslash_of_isSpace {d : Dialect} {c : Char} (h : d.isSpace c = true) : c ≠ '\\' := by
  rintro rfl
  revert h
  cases d <;> decide

theorem endsWord_of_isSpace {d : Dialect} {c : Char} (h : d.isSpace c = true) (cs : List Char) :
    d.endsWord (c :: cs) = true := by
  rw [endsWord_cons (ne_backslash_of_isSpace h), h, Bool.true_or]

theorem splitSpace_of_isSpace {d : Dialect} {c : Char} (h : d.isSpace c = true) (cs : List Char) :
    d.splitSpace (c :: cs) = (c :: (d.splitSpace cs).1, (d.splitSpace cs).2) := by
  rw [Dialect.splitSpace.eq_3 d c cs fun _ hb => absurd hb (ne_backslash_of_isSpace h), if_pos h]

theorem ne_of_not_isSpecial {c x : Char} (h : isSpecial c = false) (hx : isSpecial x = true) :
    c ≠ x := by
  rintro rfl
  rw [hx] at h
  cases h

/-- A word does not end at a character that an element may hold as it stands. -/
theorem endsWord_cons_of_not_isSpecial {d : Dialect} {c : Char} {cs : List Char}
    (h : isSpecial c = false) : d.endsWord (c :: cs) = false := by
  have hb : c ≠ '\\' := ne_of_not_isSpecial h (by decide)
  rw [endsWord_cons hb, Bool.or_eq_false_iff]
  refine ⟨Bool.eq_false_iff.2 fun hs => ?_, Bool.eq_false_iff.2 fun hs => ?_⟩
  · rw [isSpecial_of_isSpace hs] at h; cases h
  · rw [isSpecial_of_isSeparator hs] at h; cases h

/-- Nor does it end at a backslash, unless a newline follows. -/
theorem endsWord_backslash {d : Dialect} {c : Char} {cs : List Char} (h : c ≠ '\n') :
    d.endsWord ('\\' :: c :: cs) = false := by
  rw [Dialect.endsWord.eq_3 d '\\' (c :: cs) fun _ _ hc => h (List.cons.inj hc).1]
  cases d <;> decide

theorem endsWord_open {d : Dialect} (cs : List Char) : d.endsWord ('{' :: cs) = false := by
  rw [endsWord_cons (by decide)]
  cases d <;> decide

theorem endsWord_space {d : Dialect} (cs : List Char) : d.endsWord (' ' :: cs) = true :=
  endsWord_of_isSpace (by cases d <;> rfl) cs

/-! ## Atoms -/

/-- The text `e` makes the character `c` of a word, and the word does not end before it. -/
def Encodes (d : Dialect) (f : Substitutions) (e : List Char) (c : Char) : Prop :=
  ∀ cs, d.endsWord (e ++ cs) = false ∧
    ∃ a as, e = a :: as ∧ atom f a (as ++ cs) = .ok ⟨[.char c], e, cs⟩

theorem encodes_self {d : Dialect} {f : Substitutions} {c : Char} (h : isSpecial c = false) :
    Encodes d f [c] c := by
  intro cs
  refine ⟨endsWord_cons_of_not_isSpecial h, c, [], rfl, ?_⟩
  have h₁ : c ≠ '\\' := ne_of_not_isSpecial h (by decide)
  have h₂ : c ≠ '$' := ne_of_not_isSpecial h (by decide)
  have h₃ : c ≠ '[' := ne_of_not_isSpecial h (by decide)
  simp [atom, Word.atomTail, h₁, h₂, h₃, Except.map, Reading.after]

section Escapes

variable {d : Dialect} {f : Substitutions} (hf : f.ofBackslashes = true)

include hf

theorem encodes_backslash {c x : Char} (hx : x ≠ '\n')
    (h : ∀ cs, Word.escaped (x :: cs) = ⟨[.char c], [x], cs⟩) : Encodes d f ['\\', x] c := by
  intro cs
  refine ⟨endsWord_backslash hx, '\\', [x], rfl, ?_⟩
  simp [atom, Word.atomTail, hf, h, Except.map, Reading.after]

theorem encodes_number_sign : Encodes d f ['\\', '#'] '#' :=
  encodes_backslash hf (by decide) fun _ => rfl

theorem encodes_escape (c : Char) : Encodes d f (escape c) c := by
  unfold escape
  split
  · subst_vars; exact encodes_backslash hf (by decide) fun _ => rfl
  split
  · subst_vars; exact encodes_backslash hf (by decide) fun _ => rfl
  split
  · subst_vars; exact encodes_backslash hf (by decide) fun _ => rfl
  split
  · rename_i hn _ _ hs
    refine encodes_backslash hf hn fun cs => ?_
    -- `n`, `t` and `r` would stand for something else, but they are not special.
    have hne (x : Char) (hx : isSpecial x = false) : c ≠ x :=
      (ne_of_not_isSpecial hx hs).symm
    rw [Word.escaped.eq_6 c cs (hne 'n' (by decide)) (hne 't' (by decide)) (hne 'r' (by decide)) hn]
  · rename_i hs
    exact encodes_self (Bool.eq_false_iff.2 hs)

end Escapes

theorem atomsUntil_of_stop {stop : List Char → Bool} {t : List Char} (f : Substitutions)
    (h : t = [] ∨ stop t = true) : atomsUntil f stop t = .ok ⟨[], [], t⟩ := by
  cases t with
  | nil => rw [atomsUntil]
  | cons c t => rw [atomsUntil, if_pos (h.resolve_left (List.cons_ne_nil c t))]

theorem atomsUntil_of_atom {f : Substitutions} {stop : List Char → Bool} {c : Char}
    {cs : List Char} {r : Reading (List Atom)} (hc : stop (c :: cs) = false)
    (h : atom f c cs = .ok r) :
    atomsUntil f stop (c :: cs) = (atomsUntil f stop r.rest).map (r.andThen (· ++ ·)) := by
  rw [atomsUntil, if_neg (Bool.eq_false_iff.1 hc)]
  split
  · rename_i e he
    rw [h] at he
    cases he
  · rename_i r' hr
    rw [h] at hr
    cases hr
    rfl

theorem atomsUntil_of_encodes {d : Dialect} {f : Substitutions} {e : List Char} {c : Char}
    (he : Encodes d f e c) (rest : List Char) :
    atomsUntil f d.endsWord (e ++ rest) =
      (atomsUntil f d.endsWord rest).map fun r => ⟨.char c :: r.value, e ++ r.source, r.rest⟩ := by
  obtain ⟨hs, a, as, rfl, ha⟩ := he rest
  rw [List.cons_append] at hs ⊢
  exact atomsUntil_of_atom hs ha

/-- Text made of the encodings of single characters is read as these characters. -/
theorem atomsUntil_flatMap {d : Dialect} {f : Substitutions} (enc : Char → List Char)
    {cs : List Char} (h : ∀ c ∈ cs, Encodes d f (enc c) c) (rest : List Char) :
    atomsUntil f d.endsWord (cs.flatMap enc ++ rest) =
      (atomsUntil f d.endsWord rest).map fun r =>
        ⟨cs.map .char ++ r.value, cs.flatMap enc ++ r.source, r.rest⟩ := by
  induction cs with
  | nil =>
    rw [List.flatMap_nil, List.nil_append]
    cases atomsUntil f d.endsWord rest <;> rfl
  | cons c cs ih =>
    rw [List.flatMap_cons, List.append_assoc, atomsUntil_of_encodes (h c (List.mem_cons_self ..)),
      ih fun c hc => h c (List.mem_cons_of_mem _ hc)]
    cases atomsUntil f d.endsWord rest with
    | error e => rfl
    | ok r => simp only [Except.map, List.map_cons, List.cons_append, List.append_assoc]

/-! ## Braces -/

/-- A text that does not end in a character has no end that does. -/
theorem getLast?_ne_of_append {c : Char} {t : List Char} (cs : List Char)
    (h : (cs ++ t).getLast? ≠ some c) : t.getLast? ≠ some c := by
  intro ht
  rw [List.getLast?_append, ht] at h
  exact h rfl

/-- A backslash that protects nothing is the last character. -/
theorem ne_backslash {c : Char} {cs : List Char} (hn : ∀ d ds, c = '\\' → cs = d :: ds → False)
    (hl : (c :: cs).getLast? ≠ some '\\') : c ≠ '\\' := by
  rintro rfl
  cases cs with
  | nil => exact hl rfl
  | cons d ds => exact hn d ds rfl rfl

/-- Text that closes the braces open before it, and no others, is passed over on the way to a
closing brace, unless a backslash at its end protects what follows. -/
theorem braced_append_of_balanced {opened depth : Nat} {cs : List Char} (rest : List Char)
    (h : balanced opened cs = true) (hl : cs.getLast? ≠ some '\\') :
    braced (depth + opened) (cs ++ rest) = (braced depth rest).map fun r => (cs ++ r.1, r.2) := by
  fun_induction balanced opened cs with
  | case1 opened =>
    rw [beq_iff_eq] at h
    subst h
    exact Option.map_id'.symm
  | case2 opened c cs ih =>
    show (braced (depth + opened) (cs ++ rest)).map (Word.push '\\' ∘ Word.push c) = _
    rw [ih h (getLast?_ne_of_append ['\\', c] hl), Option.map_map]
    rfl
  | case3 opened cs ih =>
    show (braced (depth + (opened + 1)) (cs ++ rest)).map (Word.push '{') = _
    rw [ih h (getLast?_ne_of_append ['{'] hl), Option.map_map]
    rfl
  | case4 => cases h
  | case5 opened cs ih =>
    show (braced (depth + opened) (cs ++ rest)).map (Word.push '}') = _
    rw [ih h (getLast?_ne_of_append ['}'] hl), Option.map_map]
    rfl
  | case6 opened c cs hesc hopen hclose hclose' ih =>
    have hc : c ≠ '\\' := ne_backslash hesc hl
    have hne : c ≠ '}' := by
      rintro rfl
      cases opened with
      | zero => exact hclose rfl rfl
      | succ n => exact hclose' n rfl rfl
    rw [List.cons_append, Word.braced.eq_6 _ c _ (fun _ _ hb => absurd hb hc) hopen
      (fun _ hb => hne hb) (fun _ _ hb => hne hb), ih h (getLast?_ne_of_append [c] hl),
      Option.map_map]
    rfl

/-- Text whose braces match is read up to the brace after it. -/
theorem braced_of_balanced {cs : List Char} (rest : List Char) (h : balanced 0 cs = true)
    (hl : cs.getLast? ≠ some '\\') : braced 0 (cs ++ '}' :: rest) = some (cs, rest) := by
  have hb : braced (0 + 0) (cs ++ '}' :: rest) = _ := braced_append_of_balanced _ h hl
  rw [hb]
  simp only [braced, Option.map_some, List.append_nil]

/-! ## Elements -/

theorem escapeAll_eq (cs : List Char) :
    (∃ ds, cs = '#' :: ds ∧ escapeAll cs = ['\\', '#'] ++ ds.flatMap escape) ∨
      (cs.head? ≠ some '#' ∧ escapeAll cs = cs.flatMap escape) := by
  unfold escapeAll
  split
  · exact .inl ⟨_, rfl, rfl⟩
  · rename_i h
    refine .inr ⟨fun hc => ?_, rfl⟩
    obtain ⟨ds, rfl⟩ := List.head?_eq_some_iff.1 hc
    exact h ds rfl

/-- The three written forms of an element. -/
theorem quoteChars_cases (cs : List Char) :
    (cs ≠ [] ∧ (∀ c ∈ cs, isSpecial c = false) ∧ cs.head? ≠ some '#' ∧ quoteChars cs = cs) ∨
      (balanced 0 cs = true ∧ cs.getLast? ≠ some '\\' ∧ quoteChars cs = '{' :: cs ++ ['}']) ∨
      (cs ≠ [] ∧ quoteChars cs = escapeAll cs) := by
  unfold quoteChars
  split
  · rename_i h
    subst h
    exact .inr (.inl ⟨rfl, by simp, rfl⟩)
  rename_i hn
  split
  · rename_i h
    rw [Bool.and_eq_true, decide_eq_true_eq, Bool.not_eq_true', List.any_eq_false] at h
    exact .inl ⟨hn, fun c hc => Bool.eq_false_iff.2 (h.2 c hc), h.1, rfl⟩
  split
  · rename_i h
    rw [Bool.and_eq_true, decide_eq_true_eq] at h
    exact .inr (.inl ⟨h.1, h.2, rfl⟩)
  · exact .inr (.inr ⟨hn, rfl⟩)

theorem endsWord_escapeAll (d : Dialect) {cs rest : List Char}
    (h : cs = [] → d.endsWord rest = false) : d.endsWord (escapeAll cs ++ rest) = false := by
  obtain ⟨ds, rfl, he⟩ | ⟨-, he⟩ := escapeAll_eq cs
  · rw [he]
    exact endsWord_backslash (by decide)
  · rw [he]
    cases cs with
    | nil => exact h rfl
    | cons c cs =>
      rw [List.flatMap_cons, List.append_assoc]
      exact (encodes_escape (f := .escapes) rfl c _).1

theorem endsWord_quoteChars (d : Dialect) (cs rest : List Char) :
    d.endsWord (quoteChars cs ++ rest) = false := by
  obtain ⟨hn, hs, -, hq⟩ | ⟨-, -, hq⟩ | ⟨hn, hq⟩ := quoteChars_cases cs
  · obtain ⟨c, cs, rfl⟩ := List.exists_cons_of_ne_nil hn
    rw [hq]
    exact endsWord_cons_of_not_isSpecial (hs c (List.mem_cons_self ..))
  · rw [hq]
    exact endsWord_open _
  · rw [hq]
    exact endsWord_escapeAll d fun h => absurd h hn

theorem read_of_atomsUntil {d : Dialect} {f : Substitutions} {cs : List Char}
    (h : ∀ c, cs.head? = some c → c ≠ '{' ∧ c ≠ '"') :
    read d f cs = (atomsUntil f d.endsWord cs).map (·.map Word.ofAtoms) := by
  refine Word.read.eq_3 d f cs (fun ds hc => ?_) (fun ds hc => ?_)
  · exact (h '{' (by rw [hc]; rfl)).1 rfl
  · exact (h '"' (by rw [hc]; rfl)).2 rfl

theorem head?_escape_ne (c : Char) :
    ∃ a as, escape c = a :: as ∧ a ≠ '{' ∧ a ≠ '"' := by
  unfold escape
  split
  · exact ⟨_, _, rfl, by decide, by decide⟩
  split
  · exact ⟨_, _, rfl, by decide, by decide⟩
  split
  · exact ⟨_, _, rfl, by decide, by decide⟩
  split
  · exact ⟨_, _, rfl, by decide, by decide⟩
  · rename_i hs
    have hs := Bool.eq_false_iff.2 hs
    exact ⟨_, _, rfl, ne_of_not_isSpecial hs (by decide), ne_of_not_isSpecial hs (by decide)⟩

theorem head?_escapeAll_ne {cs rest : List Char}
    (h : cs = [] → ∀ c, rest.head? = some c → c ≠ '{' ∧ c ≠ '"') :
    ∀ c, (escapeAll cs ++ rest).head? = some c → c ≠ '{' ∧ c ≠ '"' := by
  obtain ⟨ds, rfl, he⟩ | ⟨-, he⟩ := escapeAll_eq cs
  · simp [he]
  · cases cs with
    | nil => exact h rfl
    | cons c cs =>
      obtain ⟨a, as, hc, hne⟩ := head?_escape_ne c
      intro x hx
      rw [he, List.flatMap_cons, hc] at hx
      cases hx
      exact hne

section Read

variable {d : Dialect} {f : Substitutions}

theorem read_bare {cs rest : List Char} (hn : cs ≠ []) (hs : ∀ c ∈ cs, isSpecial c = false)
    (hr : d.endsWord rest = true) :
    read d f (cs ++ rest) = .ok ⟨ofText (.ofList cs), cs, rest⟩ := by
  have henc (c : Char) (hc : c ∈ cs) : Encodes d f [c] c := encodes_self (hs c hc)
  have ha := atomsUntil_flatMap (fun c => [c]) henc rest
  rw [List.flatMap_singleton', atomsUntil_of_stop f (.inr hr)] at ha
  rw [read_of_atomsUntil, ha]
  · simp only [Except.map, Reading.map, List.append_nil, Word.ofAtoms_chars hn]
  · intro c hc
    obtain ⟨x, cs, rfl⟩ := List.exists_cons_of_ne_nil hn
    cases hc
    have := hs c (List.mem_cons_self ..)
    exact ⟨ne_of_not_isSpecial this (by decide), ne_of_not_isSpecial this (by decide)⟩

theorem read_braces {cs rest : List Char} (hb : balanced 0 cs = true)
    (hl : cs.getLast? ≠ some '\\') (hr : d.endsWord rest = true) :
    read d f ('{' :: cs ++ ['}'] ++ rest) =
      .ok ⟨ofText (.ofList cs), '{' :: cs ++ ['}'], rest⟩ := by
  rw [List.cons_append, List.cons_append, List.append_assoc, List.singleton_append, Word.read.eq_1,
    braced_of_balanced rest hb hl]
  exact if_pos hr

variable (hf : f.ofBackslashes = true)

include hf

theorem atomsUntil_escapeAll (cs rest : List Char) :
    atomsUntil f d.endsWord (escapeAll cs ++ rest) =
      (atomsUntil f d.endsWord rest).map fun r =>
        ⟨cs.map .char ++ r.value, escapeAll cs ++ r.source, r.rest⟩ := by
  have ha (ds : List Char) := atomsUntil_flatMap escape (fun c (_ : c ∈ ds) =>
    encodes_escape (d := d) hf c) rest
  obtain ⟨ds, rfl, he⟩ | ⟨-, he⟩ := escapeAll_eq cs
  · rw [he, List.append_assoc, atomsUntil_of_encodes (encodes_number_sign hf), ha]
    cases atomsUntil f d.endsWord rest with
    | error e => rfl
    | ok r => simp only [Except.map, List.map_cons, List.cons_append, List.append_assoc]
  · rw [he, ha]

theorem read_escapeAll {cs rest : List Char} (hn : cs ≠ []) (hr : d.endsWord rest = true) :
    read d f (escapeAll cs ++ rest) = .ok ⟨ofText (.ofList cs), escapeAll cs, rest⟩ := by
  rw [read_of_atomsUntil (head?_escapeAll_ne fun h => absurd h hn), atomsUntil_escapeAll hf,
    atomsUntil_of_stop f (.inr hr)]
  simp only [Except.map, Reading.map, List.append_nil, Word.ofAtoms_chars hn]

/-- A written element is read as one word, up to where it ends. -/
theorem read_quoteChars (cs : List Char) {rest : List Char} (hr : d.endsWord rest = true) :
    read d f (quoteChars cs ++ rest) = .ok ⟨ofText (.ofList cs), quoteChars cs, rest⟩ := by
  obtain ⟨hn, hs, -, hq⟩ | ⟨hb, hl, hq⟩ | ⟨hn, hq⟩ := quoteChars_cases cs
  · rw [hq]; exact read_bare hn hs hr
  · rw [hq]; exact read_braces hb hl hr
  · rw [hq]; exact read_escapeAll hf hn hr

/-! ## Lists -/

omit hf in
/-- `readAll` without the proof that it ends. -/
theorem readAll_eq (cs : List Char) :
    readAll d f cs =
      if d.endsWord (d.splitSpace cs).2 then
        .ok ⟨[], (d.splitSpace cs).1, (d.splitSpace cs).2⟩
      else
        (read d f (d.splitSpace cs).2).bind fun r =>
          (readAll d f r.rest).map fun t => (r.andThen List.cons t).after (d.splitSpace cs).1 := by
  rw [readAll]
  split
  · rfl
  split
  · rename_i h; rw [h]; rfl
  · rename_i h; rw [h]; rfl

theorem readAll_quoteChars (cs : List Char) {rest : List Char} (hr : d.endsWord rest = true) :
    readAll d f (quoteChars cs ++ rest) = (readAll d f rest).map fun t =>
      ⟨ofText (.ofList cs) :: t.value, quoteChars cs ++ t.source, t.rest⟩ := by
  have hs := endsWord_quoteChars d cs rest
  rw [readAll_eq, d.splitSpace_of_not_endsWord hs, if_neg (by rw [hs]; decide),
    read_quoteChars hf cs hr]
  rfl

end Read

/-- Space in front of words is passed over. -/
theorem readAll_of_splitSpace {d : Dialect} {f : Substitutions} {cs cs' space : List Char}
    (h : d.splitSpace cs' = (space ++ (d.splitSpace cs).1, (d.splitSpace cs).2)) :
    readAll d f cs' = (readAll d f cs).map (·.after space) := by
  rw [readAll_eq, readAll_eq cs, h]
  split
  · rfl
  cases read d f (d.splitSpace cs).2 with
  | error e => rfl
  | ok r =>
    show Except.map _ (readAll d f r.rest) = ((readAll d f r.rest).map _).map _
    cases readAll d f r.rest with
    | error e => rfl
    | ok q => simp only [Except.map, Reading.after, List.append_assoc]

theorem readAll_space {d : Dialect} {f : Substitutions} {c : Char} (cs : List Char)
    (h : d.isSpace c = true) :
    readAll d f (c :: cs) = (readAll d f cs).map (·.after [c]) :=
  readAll_of_splitSpace (splitSpace_of_isSpace h cs)

/-- The words of a written list are its elements. -/
theorem readAll_mergeChars {d : Dialect} {f : Substitutions} (hf : f.ofBackslashes = true)
    (items : List (List Char)) :
    readAll d f ([' '].intercalate (items.map quoteChars)) =
      .ok ⟨items.map fun cs => ofText (.ofList cs),
        [' '].intercalate (items.map quoteChars), []⟩ := by
  induction items with
  | nil => simp [readAll, Dialect.splitSpace, Dialect.endsWord]
  | cons cs items ih =>
    cases items with
    | nil =>
      rw [List.map_singleton, List.intercalate_singleton]
      have hq : readAll d f (quoteChars cs ++ []) = _ := readAll_quoteChars hf cs rfl
      rw [List.append_nil] at hq
      rw [hq]
      simp [readAll, Dialect.splitSpace, Dialect.endsWord, Except.map]
    | cons ds items =>
      rw [List.map_cons, List.map_cons, List.intercalate_cons_cons, ← List.map_cons,
        List.append_assoc, List.singleton_append, readAll_quoteChars hf cs (endsWord_space _),
        readAll_space _ (by cases d <;> decide), ih]
      rfl

theorem toList_quote (s : String) : (quote s).toList = quoteChars s.toList :=
  String.toList_ofList

theorem toList_merge (items : List String) :
    (merge items).toList = [' '].intercalate ((items.map String.toList).map quoteChars) := by
  rw [merge, String.toList_intercalate, List.map_map, List.map_map]
  exact congrArg _ (List.map_congr_left fun s _ => toList_quote s)

/-- The words of a written list, in a list or in a script. -/
theorem readAll_merge {d : Dialect} {f : Substitutions} (hf : f.ofBackslashes = true)
    (items : List String) :
    readAll d f (merge items).toList = .ok ⟨items.map ofText, (merge items).toList, []⟩ := by
  rw [toList_merge, readAll_mergeChars hf, List.map_map]
  refine congrArg (fun ws => Except.ok (Reading.mk ws _ _)) (List.map_congr_left fun s _ => ?_)
  exact congrArg ofText String.ofList_toList

theorem literal_ofText (s : String) : (ofText s).literal = s := by
  simp [Word.literal, ofText, Piece.source]

theorem split_merge (items : List String) : split (merge items) = .ok items := by
  rw [split, readAll_merge rfl]
  simp only [Except.map, List.map_map]
  refine congrArg Except.ok ((List.map_congr_left fun s _ => ?_).trans (List.map_id items))
  exact literal_ofText s

theorem merge_singleton (s : String) : merge [s] = quote s := by
  rw [merge, List.map_singleton, String.intercalate_singleton]

theorem merge_concat {items : List String} (h : items ≠ []) (item : String) :
    merge (items ++ [item]) = merge items ++ " " ++ quote item := by
  rw [merge, List.map_append, String.intercalate_append_of_ne_nil (by simpa using h) (by simp),
    List.map_singleton, String.intercalate_singleton]
  rfl

theorem merge_ne_empty {items : List String} (h : items ≠ []) : merge items ≠ "" := by
  intro he
  have hs := split_merge items
  rw [he, show "" = merge [] from String.intercalate_nil.symm, split_merge] at hs
  exact h (Except.ok.inj hs).symm

/-- A list of any strings is what is read back from its written form, and so is a single
element. -/
theorem quoting_reads_back :
    (∀ items : List String, split (merge items) = .ok items) ∧
      ∀ s : String, split (quote s) = .ok [s] :=
  ⟨split_merge, fun s => merge_singleton s ▸ split_merge [s]⟩

end Ensembles
