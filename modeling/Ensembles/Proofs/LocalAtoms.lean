import Ensembles.Proofs.Quoting

/-!
# Atoms are read locally

What is read from the start of a text depends on the text that it is read from, and not on what
comes after it, as far as this does not go on with it. So a reading may be taken from in front of
one text and put in front of another one: `braced_local`, `bracketed_local` and `bracedName_local`
say so of enclosed text without a condition, and `bareName_local` of a name in front of texts that
do not go on with one (`Inert`). `Stop` says what is needed of the places where a sequence of atoms
stops; then `atomsUntil_local` says that the atoms are the same up to any other such place. Only
for a backslash that nothing follows it matters what follows it.
-/

namespace Ensembles

open Text (isBlank isAlphanumeric)
open Word (atom atomsUntil braced bracketed bracedName bareName isIndent)

theorem exists_of_map_eq_ok {ε α β : Type} {g : α → β} {x : Except ε α} {b : β}
    (h : x.map g = .ok b) : ∃ a, x = .ok a ∧ g a = b := by
  cases x with
  | error e => cases h
  | ok a => exact ⟨a, rfl, Except.ok.inj h⟩

/-! ## Texts that no name goes on with -/

theorem isAlphanumeric_of_isBlank {c : Char} (h : isBlank c = true) : isAlphanumeric c = false := by
  have hranges : ∀ r ∈ Text.blankRanges, ∀ k < r.2 + 1 - r.1,
      isAlphanumeric (Char.ofNat (r.1 + k)) = false := by
    decide +kernel
  obtain ⟨r, hr, hc⟩ := List.any_eq_true.1 h
  simp only [Bool.and_eq_true, decide_eq_true_eq] at hc
  have hk := hranges r hr (c.toNat - r.1) (by omega)
  rwa [Nat.add_sub_cancel' hc.1, Char.ofNat_toNat] at hk

/-- The text does not start with what a dollar sign or a name before it takes in. -/
def Inert (cs : List Char) : Prop :=
  ∀ c ∈ cs.head?, isAlphanumeric c = false ∧ c ≠ '_' ∧ c ≠ ':' ∧ c ≠ '{'

theorem inert_nil : Inert [] := nofun

theorem bareName_of_inert {t : List Char} (h : Inert t) : bareName t = ([], t) := by
  cases t with
  | nil => rfl
  | cons c t =>
    obtain ⟨ha, hu, hc, -⟩ := h c rfl
    rw [Word.bareName.eq_3 c t fun _ hcc => absurd hcc hc, ha, if_neg (by simp [hu])]

theorem bareName_append_of_inert (cs : List Char) {t : List Char} (h : Inert t) :
    bareName (cs ++ t) = ((bareName cs).1, (bareName cs).2 ++ t) := by
  fun_induction bareName cs with
  | case1 => exact bareName_of_inert h
  | case2 cs ih => simp only [List.cons_append, bareName, ih, Word.push]
  | case3 c cs hcc hc ih =>
    have hne : c ≠ ':' := by
      rintro rfl
      revert hc
      decide
    rw [List.cons_append, Word.bareName.eq_3 c _ fun _ he => absurd he hne, if_pos hc, ih]
    rfl
  | case4 c cs hcc hc =>
    have hne (ds : List Char) (he : c = ':') : cs ++ t ≠ ':' :: ds := by
      subst he
      cases cs with
      | nil =>
        rintro rfl
        exact (h ':' rfl).2.2.1 rfl
      | cons d cs =>
        rintro hd
        cases hd
        exact hcc cs rfl rfl
    rw [List.cons_append, Word.bareName.eq_3 c _ hne, if_neg hc]

/-- A name that is read in front of one text is read in front of another one. -/
theorem bareName_local {cs name s t t' : List Char} (h : bareName cs = (name, s ++ t))
    (ht : Inert t) (ht' : Inert t') : bareName (name ++ (s ++ t')) = (name, s ++ t') := by
  have hcs := Word.bareName_append cs
  rw [h, ← List.append_assoc] at hcs
  rw [← hcs, bareName_append_of_inert _ ht, Prod.mk.injEq] at h
  obtain ⟨hn, hs⟩ := h
  rw [← List.append_assoc, bareName_append_of_inert _ ht', hn, List.append_cancel_right hs]

/-! ## Enclosed text -/

theorem braced_local {depth : Nat} {cs t rest : List Char} (h : braced depth cs = some (t, rest))
    (rest' : List Char) : braced depth (t ++ '}' :: rest') = some (t, rest') := by
  fun_induction braced depth cs generalizing t rest with
  | case1 => cases h
  | case4 => cases h; rfl
  | case2 depth c cs ih =>
    obtain ⟨⟨u, r⟩, hr, he⟩ := Option.map_eq_some_iff.1 h
    cases he
    simp only [Function.comp_apply, Word.push, List.cons_append, braced, ih hr, Option.map_some]
  | case3 _ _ ih | case5 _ _ ih =>
    obtain ⟨⟨u, r⟩, hr, he⟩ := Option.map_eq_some_iff.1 h
    cases he
    simp only [Word.push, List.cons_append, braced, ih hr, Option.map_some]
  | case6 depth c cs hesc hopen hclose hclose' ih =>
    obtain ⟨⟨u, r⟩, hr, he⟩ := Option.map_eq_some_iff.1 h
    cases he
    have hc : c ≠ '\\' := by
      rintro rfl
      cases cs with
      | nil => cases hr
      | cons d cs => exact hesc d cs rfl rfl
    rw [List.cons_append]
    rw [Word.braced.eq_6 depth c _ (fun _ _ he => absurd he hc) hopen hclose hclose', ih hr]
    rfl

theorem bracketed_local {depth braces : Nat} {cs t rest : List Char}
    (h : bracketed depth braces cs = some (t, rest)) (rest' : List Char) :
    bracketed depth braces (t ++ ']' :: rest') = some (t, rest') := by
  fun_induction bracketed depth braces cs generalizing t rest with
  | case1 => cases h
  | case6 => cases h; rfl
  | case2 depth braces c cs ih =>
    obtain ⟨⟨u, r⟩, hr, he⟩ := Option.map_eq_some_iff.1 h
    cases he
    simp only [Function.comp_apply, Word.push, List.cons_append, bracketed, ih hr, Option.map_some]
  | case3 _ _ _ ih | case4 _ _ _ ih | case5 _ _ ih | case7 _ _ ih =>
    obtain ⟨⟨u, r⟩, hr, he⟩ := Option.map_eq_some_iff.1 h
    cases he
    simp only [Word.push, List.cons_append, bracketed, ih hr, Option.map_some]
  | case8 depth braces c cs hesc hopen hclose hin hout hout' ih =>
    obtain ⟨⟨u, r⟩, hr, he⟩ := Option.map_eq_some_iff.1 h
    cases he
    have hc : c ≠ '\\' := by
      rintro rfl
      cases cs with
      | nil => cases hr
      | cons d cs => exact hesc d cs rfl rfl
    rw [List.cons_append]
    rw [Word.bracketed.eq_8 depth braces c _ (fun _ _ he => absurd he hc) hopen hclose hin hout
      hout', ih hr]
    rfl

theorem bracedName_local {cs t rest : List Char} (h : bracedName cs = some (t, rest))
    (rest' : List Char) : bracedName (t ++ '}' :: rest') = some (t, rest') := by
  fun_induction bracedName cs generalizing t rest with
  | case1 => cases h
  | case2 => cases h; rfl
  | case3 c cs hc ih =>
    obtain ⟨⟨u, r⟩, hr, he⟩ := Option.map_eq_some_iff.1 h
    cases he
    rw [List.cons_append]
    rw [Word.bracedName.eq_3 c _ hc, ih hr]
    rfl

/-! ## Atoms -/

/-- The text does not go on with the indent of a line. -/
def Unindented (cs : List Char) : Prop := ∀ c ∈ cs.head?, isIndent c = false

theorem indent_local (cs : List Char) {t : List Char} (h : Unindented t) :
    (cs.takeWhile isIndent ++ t).takeWhile isIndent = cs.takeWhile isIndent ∧
      (cs.takeWhile isIndent ++ t).dropWhile isIndent = t := by
  have hall : ∀ x ∈ cs.takeWhile isIndent, isIndent x = true :=
    List.all_eq_true.1 List.all_takeWhile
  rw [List.takeWhile_append_of_pos hall, List.dropWhile_append_of_pos hall]
  cases t with
  | nil => exact ⟨List.append_nil _, rfl⟩
  | cons x t =>
    have hx : ¬ isIndent x = true := Bool.eq_false_iff.1 (h x rfl)
    rw [List.takeWhile_cons_of_neg hx, List.dropWhile_cons_of_neg hx]
    exact ⟨List.append_nil _, rfl⟩

theorem unindented_dropWhile (cs : List Char) : Unindented (cs.dropWhile isIndent) := by
  intro c hc
  have hhead := List.head?_dropWhile_not isIndent cs
  rw [Option.mem_def.1 hc] at hhead
  exact hhead

theorem Unindented.append {s t t' : List Char} (h : Unindented (s ++ t)) (ht' : Unindented t') :
    Unindented (s ++ t') := by
  cases s with
  | nil => exact ht'
  | cons c s => exact h

theorem escaped_local {cs t' : List Char} (hcs : cs ≠ [])
    (hindent : cs.head? = some '\n' → Unindented (Word.escaped cs).rest → Unindented t') :
    Word.escaped ((Word.escaped cs).source ++ t') = { Word.escaped cs with rest := t' } := by
  fun_cases Word.escaped cs with
  | case1 => exact absurd rfl hcs
  | case2 | case3 | case4 => rfl
  | case5 cs =>
    obtain ⟨htake, hdrop⟩ := indent_local cs (hindent rfl (unindented_dropWhile cs))
    simp only [List.cons_append, Word.escaped, htake, hdrop]
  | case6 c cs hn ht hr hl => exact Word.escaped.eq_6 c t' hn ht hr hl

theorem verbatim_local {cs : List Char} (hcs : cs ≠ []) (t' : List Char) :
    Word.verbatim ((Word.verbatim cs).source ++ t') = { Word.verbatim cs with rest := t' } := by
  cases cs with
  | nil => exact absurd rfl hcs
  | cons c cs => rfl

section Atoms

variable {f : Substitutions} {c : Char} {cs s t t' : List Char} {r : Reading (List Atom)}

/-- No brace stands at the start where none stood before. -/
theorem ne_open_of_inert {name : List Char} (h : ∀ ds, name ++ (s ++ t) ≠ '{' :: ds)
    (ht' : Inert t') (ds : List Char) : name ++ (s ++ t') ≠ '{' :: ds := by
  rw [← List.append_assoc] at h ⊢
  cases hs : name ++ s with
  | nil =>
    rintro rfl
    exact (ht' _ rfl).2.2.2 rfl
  | cons d es =>
    rintro he
    cases he
    exact h (es ++ t) (by rw [hs]; rfl)

theorem variableName_local (h : Word.variableName cs = .ok r) (hr : r.rest = s ++ t) (ht : Inert t)
    (ht' : Inert t') :
    Word.variableName (r.source ++ (s ++ t')) = .ok { r with rest := s ++ t' } := by
  have hcs : r.source ++ (s ++ t) = cs := hr ▸ Word.variableName_of h
  fun_cases Word.variableName cs with
  | case1 cs hn => simp [Word.variableName, hn] at h
  | case2 cs name rest hn =>
    simp only [Word.variableName, hn, Except.ok.injEq] at h
    subst h
    simp only [List.cons_append, List.append_assoc, List.nil_append, Word.variableName,
      bracedName_local hn (s ++ t')]
  | case3 cs hb rest hn =>
    rw [Word.variableName.eq_2 cs hb, hn] at h
    cases h
    subst hr
    have hb' : ∀ ds, [] ++ (s ++ t') ≠ '{' :: ds :=
      ne_open_of_inert (fun ds he => hb ds (hcs ▸ he)) ht'
    rw [Word.variableName.eq_2 _ hb', bareName_local hn ht ht']
  | case4 cs hb name rest hne hn =>
    rw [Word.variableName.eq_2 cs hb, hn] at h
    cases name with
    | nil => exact absurd rfl hne
    | cons c name =>
      cases h
      subst hr
      have hb' := ne_open_of_inert (fun ds he => hb ds (hcs ▸ he)) ht'
      rw [Word.variableName.eq_2 _ hb', bareName_local hn ht ht']

theorem scriptSource_local (h : Word.scriptSource cs = .ok r) (t' : List Char) :
    Word.scriptSource (r.source ++ t') = .ok { r with rest := t' } := by
  unfold Word.scriptSource at h
  split at h
  · cases h
  · rename_i source rest hb
    cases h
    rw [List.append_assoc, List.singleton_append, Word.scriptSource, bracketed_local hb t']

/-- What is read in front of `s ++ t` is read in front of `s ++ t'`, unless a backslash that
nothing follows or the indent of a line goes on there. -/
theorem atomTail_local (h : Word.atomTail f c cs = .ok r) (hr : r.rest = s ++ t) (ht : Inert t)
    (ht' : Inert t') (hend : c = '\\' → cs ≠ [])
    (hindent : c = '\\' → cs.head? = some '\n' → Unindented r.rest → Unindented (s ++ t')) :
    Word.atomTail f c (r.source ++ (s ++ t')) = .ok { r with rest := s ++ t' } := by
  unfold Word.atomTail at h ⊢
  split at h
  · rename_i hc
    rw [if_pos hc]
    cases h
    split
    · rename_i hf
      rw [if_pos hf] at hindent
      rw [escaped_local (hend hc) (hindent hc)]
    · rw [verbatim_local (hend hc)]
  rename_i hc
  rw [if_neg hc]
  split at h
  · rename_i hv
    rw [if_pos hv]
    exact variableName_local h hr ht ht'
  rename_i hv
  rw [if_neg hv]
  split at h
  · rename_i hb
    rw [if_pos hb]
    exact scriptSource_local h (s ++ t')
  · rename_i hb
    rw [if_neg hb]
    cases h
    rfl

theorem atom_eq_ok (h : atom f c cs = .ok r) :
    ∃ q, Word.atomTail f c cs = .ok q ∧ r = q.after [c] := by
  obtain ⟨q, hq, rfl⟩ := exists_of_map_eq_ok h
  exact ⟨q, hq, rfl⟩

/-- A backslash is read together with what follows it. -/
theorem atomTail_backslash {d : Char} (h : Word.atomTail f '\\' (d :: cs) = .ok r) :
    ∃ src, r.source = d :: src := by
  rw [Word.atomTail, if_pos rfl] at h
  cases h
  split
  · unfold Word.escaped
    split
    · rename_i hd
      cases hd
    all_goals
      rename_i hd
      cases hd
      exact ⟨_, rfl⟩
  · exact ⟨_, rfl⟩

end Atoms

/-! ## Places where words stop -/

/-- What the reading of atoms needs of the places where it stops: they are told from other ones
by their first character, or by the one after it if that is a backslash, and no name goes on
there. The indent of a continued line is not read, or it does not go on there either. -/
structure Stop (stop : List Char → Bool) : Prop where
  plain {c : Char} (x y : List Char) : c ≠ '\\' → stop (c :: x) = stop (c :: y)
  escaped (c : Char) (x y : List Char) : stop ('\\' :: c :: x) = stop ('\\' :: c :: y)
  inert {t : List Char} : stop t = true → Inert t
  indent : (∀ x, stop ('\\' :: '\n' :: x) = true) ∨ ∀ t, stop t = true → Unindented t

theorem inert_cons_of_isBlank {c : Char} (h : isBlank c = true) (t : List Char) :
    Inert (c :: t) := by
  intro x hx
  cases hx
  refine ⟨isAlphanumeric_of_isBlank h, ?_, ?_, ?_⟩
  all_goals
    rintro rfl
    revert h
    decide

theorem stop_endsWord (d : Dialect) : Stop d.endsWord where
  plain {c} x y hc := by
    rw [endsWord_cons hc, endsWord_cons hc]
  escaped c x y := by
    by_cases hc : c = '\n'
    · subst hc
      rfl
    · rw [endsWord_backslash hc, endsWord_backslash hc]
  inert {t} h := by
    cases t with
    | nil => exact inert_nil
    | cons c x =>
      by_cases hb : c = '\\'
      · subst hb
        intro c hc
        cases hc
        decide +kernel
      rw [endsWord_cons hb, Bool.or_eq_true] at h
      rcases h with h | h
      · exact inert_cons_of_isBlank (isBlank_of_isSpace h) x
      · intro c hc
        cases hc
        obtain ⟨-, rfl | rfl⟩ := eq_of_isSeparator h <;> decide +kernel
  indent := .inl fun x => rfl

theorem atQuote_eq_true_iff {cs : List Char} : Word.atQuote cs = true ↔ ∃ t, cs = '"' :: t := by
  unfold Word.atQuote
  split
  · exact ⟨fun _ => ⟨_, rfl⟩, fun _ => rfl⟩
  · rename_i h
    exact ⟨nofun, fun ⟨t, ht⟩ => (h t ht).elim⟩

theorem stop_atQuote : Stop Word.atQuote where
  plain {c} x y _ := by
    rw [Bool.eq_iff_iff, atQuote_eq_true_iff, atQuote_eq_true_iff]
    simp only [List.cons.injEq, exists_and_left, exists_eq']
  escaped c x y := rfl
  inert {t} h := by
    obtain ⟨t, rfl⟩ := atQuote_eq_true_iff.1 h
    intro c hc
    cases hc
    decide +kernel
  indent := .inr fun t h => by
    obtain ⟨t, rfl⟩ := atQuote_eq_true_iff.1 h
    intro c hc
    cases hc
    rfl

section Stops

variable {f : Substitutions} {stop : List Char → Bool} {c : Char} {cs t t' : List Char}
  {r : Reading (List Atom)}

/-- The reading of atoms ends with the text or where it stops. -/
theorem atomsUntil_rest (h : atomsUntil f stop cs = .ok r) : r.rest = [] ∨ stop r.rest = true := by
  fun_induction atomsUntil f stop cs generalizing r with
  | case1 => cases h; exact .inl rfl
  | case2 c cs hc => cases h; exact .inr hc
  | case3 => cases h
  | case4 c cs _ r' ha ih =>
    obtain ⟨t, ht, rfl⟩ := exists_of_map_eq_ok h
    exact ih (r := t) ht

theorem Stop.inert_rest (hs : Stop stop) (h : t = [] ∨ stop t = true) : Inert t := by
  rcases h with rfl | h
  · exact inert_nil
  · exact hs.inert h

/-- Where reading does not stop, it does not stop either when other text comes after the first
atom. -/
theorem Stop.atom_append (hs : Stop stop) {q : Reading (List Atom)}
    (h : Word.atomTail f c cs = .ok q) (hc : stop (c :: cs) = false)
    (hend : c = '\\' → cs ≠ []) (t : List Char) : stop (c :: (q.source ++ t)) = false := by
  by_cases hb : c = '\\'
  · subst hb
    obtain ⟨d, ds, rfl⟩ := List.exists_cons_of_ne_nil (hend rfl)
    obtain ⟨src, hsrc⟩ := atomTail_backslash h
    rw [hsrc, List.cons_append, ← hc]
    exact hs.escaped d _ _
  · rw [← hc]
    exact hs.plain _ _ hb

theorem Stop.unindented (hs : Stop stop) (hc : stop ('\\' :: '\n' :: cs) = false)
    (h : t = [] ∨ stop t = true) : Unindented t := by
  rcases hs.indent with hi | hi
  · rw [hi] at hc
    cases hc
  · rcases h with rfl | h
    · exact nofun
    · exact hi t h

theorem atomsUntil_eq_ok (hc : stop (c :: cs) = false) (h : atomsUntil f stop (c :: cs) = .ok r) :
    ∃ q r₂, Word.atomTail f c cs = .ok q ∧ atomsUntil f stop q.rest = .ok r₂ ∧
      r = (q.after [c]).andThen (· ++ ·) r₂ := by
  cases ha : atom f c cs with
  | error e =>
    rw [atomsUntil, if_neg (Bool.eq_false_iff.1 hc)] at h
    split at h
    · cases h
    · rename_i hr
      rw [ha] at hr
      cases hr
  | ok r₁ =>
    obtain ⟨q, hq, rfl⟩ := atom_eq_ok ha
    rw [atomsUntil_of_atom hc ha] at h
    obtain ⟨r₂, hr₂, rfl⟩ := exists_of_map_eq_ok h
    exact ⟨q, r₂, hq, hr₂, rfl⟩

/-- Every character of a text makes an atom, alone or with others. -/
theorem atomTail_value_ne_nil {q : Reading (List Atom)} (hq : Word.atomTail f c cs = .ok q) :
    q.value ≠ [] := by
  unfold Word.atomTail at hq
  split at hq
  · cases hq
    split
    · fun_cases Word.escaped cs <;> exact List.cons_ne_nil _ _
    · cases cs <;> exact List.cons_ne_nil _ _
  split at hq
  · unfold Word.variableName at hq
    split at hq <;> split at hq <;> cases hq <;> exact List.cons_ne_nil _ _
  split at hq
  · unfold Word.scriptSource at hq
    split at hq <;> cases hq
    exact List.cons_ne_nil _ _
  · cases hq
    exact List.cons_ne_nil _ _

/-- Where reading does not stop something is read. -/
theorem atomsUntil_value_ne_nil (hn : cs ≠ []) (hs : stop cs = false)
    (h : atomsUntil f stop cs = .ok r) : r.value ≠ [] := by
  obtain ⟨c, cs, rfl⟩ := List.exists_cons_of_ne_nil hn
  obtain ⟨q, r', hq, -, rfl⟩ := atomsUntil_eq_ok hs h
  exact List.append_ne_nil_of_left_ne_nil (atomTail_value_ne_nil hq) _

theorem atomsUntil_source_of_value (h : atomsUntil f stop cs = .ok r) (hv : r.value = []) :
    r.source = [] := by
  by_cases hs : cs = [] ∨ stop cs = true
  · rw [atomsUntil_of_stop f hs] at h
    cases h
    rfl
  · rw [not_or, Bool.not_eq_true] at hs
    exact absurd hv (atomsUntil_value_ne_nil hs.1 hs.2 h)

/-- A backslash that is read is not left alone unless it is the last of what is read. -/
theorem ne_nil_of_backslash {q r₂ : Reading (List Atom)} (hq : Word.atomTail f c cs = .ok q)
    (hr : atomsUntil f stop q.rest = .ok r₂)
    (hend : r₂.rest = [] → (c :: (q.source ++ r₂.source)).getLast? ≠ some '\\') :
    c = '\\' → cs ≠ [] := by
  rintro rfl rfl
  obtain ⟨hsrc, hrest⟩ := List.append_eq_nil_iff.1 (Word.atomTail_of hq)
  obtain ⟨hsrc₂, hrest₂⟩ := List.append_eq_nil_iff.1 ((Word.atomsUntil_of hr).trans hrest)
  refine hend hrest₂ ?_
  rw [hsrc, hsrc₂]
  rfl

/-- Atoms that are read up to one place where they stop are read up to any other one, unless they
end in a backslash that nothing follows. -/
theorem atomsUntil_local (hs : Stop stop) (h : atomsUntil f stop cs = .ok r)
    (hend : r.rest = [] → r.source.getLast? ≠ some '\\') (ht' : t' = [] ∨ stop t' = true) :
    atomsUntil f stop (r.source ++ t') = .ok { r with rest := t' } := by
  fun_induction atomsUntil f stop cs generalizing r with
  | case1 | case2 =>
    cases h
    exact atomsUntil_of_stop f ht'
  | case3 => cases h
  | case4 c cs hc r' ha ih =>
    obtain ⟨r₂, hr, rfl⟩ := exists_of_map_eq_ok h
    obtain ⟨q, hq, rfl⟩ := atom_eq_ok ha
    have hof : r₂.source ++ r₂.rest = q.rest := Word.atomsUntil_of hr
    have hne := ne_nil_of_backslash hq hr hend
    have hend₂ : r₂.rest = [] → r₂.source.getLast? ≠ some '\\' :=
      fun hrest => getLast?_ne_of_append _ (hend hrest)
    have hindent : c = '\\' → cs.head? = some '\n' → Unindented q.rest →
        Unindented (r₂.source ++ t') := by
      intro hb hn hu
      obtain ⟨ds, rfl⟩ := List.head?_eq_some_iff.1 hn
      subst hb
      rw [← hof] at hu
      exact hu.append (hs.unindented (Bool.eq_false_iff.2 hc) ht')
    have hatom : atom f c (q.source ++ (r₂.source ++ t')) =
        .ok { q.after [c] with rest := r₂.source ++ t' } := by
      rw [atom, atomTail_local hq hof.symm (hs.inert_rest (atomsUntil_rest hr))
        (hs.inert_rest ht') hne hindent]
      rfl
    show atomsUntil f stop (c :: q.source ++ r₂.source ++ t') = _
    rw [List.append_assoc, List.cons_append,
      atomsUntil_of_atom (hs.atom_append hq (Bool.eq_false_iff.2 hc) hne _) hatom, ih hr hend₂]
    rfl

/-- Where atoms are read, reading does not stop when other text comes after them. -/
theorem atomsUntil_append (hs : Stop stop) (hc : stop cs = false) (hn : cs ≠ [])
    (h : atomsUntil f stop cs = .ok r) (hend : r.rest = [] → r.source.getLast? ≠ some '\\')
    (t : List Char) : stop (r.source ++ t) = false := by
  obtain ⟨c, cs, rfl⟩ := List.exists_cons_of_ne_nil hn
  obtain ⟨q, r₂, hq, hr, rfl⟩ := atomsUntil_eq_ok hc h
  have hne := ne_nil_of_backslash hq hr hend
  show stop (c :: q.source ++ r₂.source ++ t) = false
  rw [List.append_assoc]
  exact hs.atom_append hq hc hne _

end Stops

end Ensembles
