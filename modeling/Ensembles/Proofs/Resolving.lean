import Ensembles.Proofs.Abbreviations

/-!
# Resolving abbreviations

`PartTable.resolve` looks at the part where the search comes down, walks to the left if that
part asks for more characters than were typed, and trusts the abbreviations that the table
keeps. `PartTable.scan` looks at all parts and at their names only. In a well-formed table the
two agree on every text (`Wf.resolve_eq_scan`), wherever among the parts that start with it the
search comes down (`Wf.resolveAt_eq_scan`). What a scan answers is put in terms of the names
by `Sorted.scan_eq_found_iff`, `scan_eq_ambiguous_iff` and `scan_eq_absent_iff`, and so is what
any table that changes of the empty one make answers (`PartTable.resolve_ofChanges`).
-/

namespace Ensembles

variable {α : Type}

theorem Part.startsWith_iff {p : Part α} {text : String} :
    p.startsWith text = true ↔ text.toList <+: p.name.toList :=
  List.isPrefixOf_iff_prefix

/-- Where an entry that satisfies the predicate has none before it that does not, the entries
that satisfy it stand in front. -/
theorem filter_eq_takeWhile {β : Type} {f : β → Bool} {l : List β}
    (h : l.Pairwise fun x y => f y = true → f x = true) : l.filter f = l.takeWhile f := by
  induction l with
  | nil => rfl
  | cons x l ih =>
    rw [List.pairwise_cons] at h
    by_cases hx : f x = true
    · rw [List.filter_cons_of_pos hx, List.takeWhile_cons_of_pos hx, ih h.2]
    · rw [List.filter_cons_of_neg hx, List.takeWhile_cons_of_neg hx]
      exact List.filter_eq_nil_iff.2 fun y hy hfy => hx (h.1 y hy hfy)

namespace PartTable

variable {t : PartTable α} {text : String} {p q : Part α}

/-- What `text` stands for, found by looking at all parts: the part of just that name, or else
the parts whose names start with it. -/
def scan (t : PartTable α) (text : String) : Lookup α :=
  if text = "" then .absent
  else
    match t.toList.find? (·.name = text), t.toList.filter (·.startsWith text) with
    | some p, _ => .found p
    | none, [] => .absent
    | none, [p] => .found p
    | none, ps => .ambiguous ps

/-- The text stands for the part `p` of the table: it is its name, or starts no other name. -/
def Selects (t : PartTable α) (text : String) (p : Part α) : Prop :=
  p.name = text ∨ ∀ q ∈ t.toList, q.startsWith text = true → q = p

/-- A part is selected by as many characters as its abbreviation has. -/
theorem Wf.minChars_le_iff_selects (hw : t.Wf) (hp : p ∈ t.toList) (hn : text ≠ "")
    (hs : p.startsWith text = true) : p.minChars ≤ text.length ↔ t.Selects text p := by
  have hpre := Part.startsWith_iff.1 hs
  have hpos : 1 ≤ text.length := Nat.pos_of_ne_zero (mt String.length_eq_zero_iff.1 hn)
  rw [hw.minChars_le_iff hp, Selects, and_iff_right hpos]
  refine or_congr ⟨fun hle => ?_, fun he => by rw [he]⟩ (forall₂_congr fun q hq => ?_)
  · rw [← String.length_toList, ← String.length_toList] at hle
    exact (String.toList_inj.1 (hpre.eq_of_length_le hle)).symm
  · rw [← String.length_toList, ← Nat.not_le, length_le_sharedLength_iff hpre,
      ← Part.startsWith_iff]
    constructor
    · intro h hqs
      by_contra hne
      exact h (fun he => hne (hw.sorted.eq_of_name_eq hq hp he)) hqs
    · intro h hne hqs
      exact hne (congrArg Part.name (h hqs))

/-! ## The names that start with a text -/

/-- What stands between two names that start with a text starts with it too. -/
theorem Sorted.startsWith_between (h : t.Sorted) {i j k : Nat} (hij : i < j) (hjk : j < k)
    (hk : k < t.parts.size) (hi : t.parts[i].startsWith text = true)
    (hks : t.parts[k].startsWith text = true) : t.parts[j].startsWith text = true := by
  rw [Part.startsWith_iff] at hi hks ⊢
  exact prefix_of_lt_of_lt (String.lt_iff.1 (h.lt (by omega) (by omega) hij))
    (String.lt_iff.1 (h.lt (by omega) hk hjk)) hi hks

/-- The walk to the left ends at the first part whose name starts with the text. -/
theorem Sorted.firstMatch_spec (h : t.Sorted) {i : Nat} (hi : i < t.parts.size)
    (hs : t.parts[i].startsWith text = true) :
    ∃ f, ∃ hf : f < t.parts.size, t.firstMatch text i = f ∧
      t.parts[f].startsWith text = true ∧
      ∀ j (hj : j < f), t.parts[j].startsWith text = false := by
  induction i with
  | zero => exact ⟨0, hi, rfl, hs, fun j hj => absurd hj (Nat.not_lt_zero j)⟩
  | succ i ih =>
    have hi' : i < t.parts.size := Nat.lt_of_succ_lt hi
    rw [firstMatch, Array.getElem?_eq_getElem hi']
    by_cases hp : t.parts[i].startsWith text = true
    · obtain ⟨f, hf, he, hfs, hno⟩ := ih hi' hp
      exact ⟨f, hf, (if_pos hp).trans he, hfs, hno⟩
    · refine ⟨i + 1, hi, if_neg hp, hs, fun j hj => Bool.eq_false_iff.2 fun hjs => hp ?_⟩
      rcases Nat.lt_or_eq_of_le (Nat.le_of_lt_succ hj) with hlt | rfl
      · exact h.startsWith_between hlt (Nat.lt_succ_self i) hi hjs hs
      · exact hjs

theorem Sorted.filter_startsWith (h : t.Sorted) {f : Nat} (hf : f < t.parts.size)
    (hs : t.parts[f].startsWith text = true)
    (hno : ∀ j (hj : j < f), t.parts[j].startsWith text = false) :
    t.toList.filter (·.startsWith text) =
      (t.toList.drop f).takeWhile (·.startsWith text) := by
  have hbefore : (t.toList.take f).filter (·.startsWith text) = [] := by
    refine List.filter_eq_nil_iff.2 fun q hq => ?_
    obtain ⟨j, hj, rfl⟩ := List.mem_take_iff_getElem.1 hq
    rw [show t.toList[j] = t.parts[j] from rfl, hno j (by omega)]
    exact Bool.false_ne_true
  rw [← filter_eq_takeWhile, ← List.nil_append (List.filter _ (t.toList.drop f)), ← hbefore,
    ← List.filter_append, List.take_append_drop]
  refine List.pairwise_iff_getElem.2 fun i j hi hj hij hjs => ?_
  rw [List.length_drop] at hi hj
  rw [List.getElem_drop] at hjs ⊢
  rcases Nat.eq_zero_or_pos i with rfl | hpos
  · exact hs
  · exact h.startsWith_between (Nat.lt_add_of_pos_right hpos) (Nat.add_lt_add_left hij f)
      (by simp only [toList, Array.length_toList] at hj; omega) hs hjs

/-! ## Scanning -/

theorem startsWith_of_name_eq (hn : p.name = text) : p.startsWith text = true :=
  Part.startsWith_iff.2 (hn ▸ List.prefix_refl _)

/-- Parts with ascending names that are all one part are just that part. -/
theorem eq_singleton_of_forall_eq {l : List (Part α)}
    (hl : l.Pairwise fun p q => p.name < q.name) (hp : p ∈ l) (h : ∀ q ∈ l, q = p) : l = [p] := by
  match l with
  | [] => cases hp
  | [q] => rw [h q (List.mem_singleton_self q)]
  | q :: r :: l =>
    have hlt := (List.pairwise_cons.1 hl).1 r (List.mem_cons_self ..)
    rw [h q (List.mem_cons_self ..), h r (List.mem_cons_of_mem _ (List.mem_cons_self ..))] at hlt
    exact absurd hlt (String.lt_irrefl _)

theorem mem_of_find?_name (h : t.toList.find? (·.name = text) = some p) :
    p ∈ t.toList ∧ p.name = text :=
  ⟨List.mem_of_find?_eq_some h, by simpa using List.find?_some h⟩

theorem find?_name_eq_none_iff :
    t.toList.find? (·.name = text) = none ↔ ∀ q ∈ t.toList, q.name ≠ text := by
  simp only [List.find?_eq_none, decide_eq_true_eq, ne_eq]

/-- A scan gives the parts that start with the text and that it selects. -/
theorem Sorted.scan_eq_found_iff (h : t.Sorted) (hn : text ≠ "") :
    t.scan text = .found p ↔ p ∈ t.toList ∧ p.startsWith text = true ∧ t.Selects text p := by
  rw [scan, if_neg hn]
  constructor
  · intro hs
    split at hs
    · rename_i q hq
      cases hs
      obtain ⟨hp, hpn⟩ := mem_of_find?_name hq
      exact ⟨hp, startsWith_of_name_eq hpn, .inl hpn⟩
    · cases hs
    · rename_i hone
      cases hs
      have hp : p ∈ t.toList.filter (·.startsWith text) := hone ▸ List.mem_singleton_self p
      refine ⟨(List.mem_filter.1 hp).1, (List.mem_filter.1 hp).2, .inr fun q hq hqs => ?_⟩
      exact List.mem_singleton.1 (hone ▸ List.mem_filter.2 ⟨hq, hqs⟩)
    · cases hs
  · rintro ⟨hp, hps, hsel⟩
    cases hf : t.toList.find? (·.name = text) with
    | some q =>
      obtain ⟨hq, hqn⟩ := mem_of_find?_name hf
      have hqp : q = p := hsel.elim (fun he => h.eq_of_name_eq hq hp (hqn.trans he.symm))
        fun honly => honly q hq (startsWith_of_name_eq hqn)
      rw [hqp]
    | none =>
      have honly := hsel.resolve_left (find?_name_eq_none_iff.1 hf p hp)
      have hone : t.toList.filter (·.startsWith text) = [p] :=
        eq_singleton_of_forall_eq (h.pairwise_name.filter _) (List.mem_filter.2 ⟨hp, hps⟩)
          fun q hq => honly q (List.mem_filter.1 hq).1 (List.mem_filter.1 hq).2
      rw [hone]

/-- A scan gives all parts that start with the text if there are several and none is of that
name. -/
theorem scan_eq_ambiguous_iff (hn : text ≠ "") {ps : List (Part α)} :
    t.scan text = .ambiguous ps ↔
      (∀ q ∈ t.toList, q.name ≠ text) ∧ 2 ≤ ps.length ∧
        ps = t.toList.filter (·.startsWith text) := by
  rw [scan, if_neg hn, ← find?_name_eq_none_iff]
  have hshort {l : List (Part α)} (hl : l.length < 2) : ¬ (2 ≤ ps.length ∧ ps = l) := by
    rintro ⟨hle, rfl⟩
    omega
  cases hf : t.toList.find? (·.name = text) with
  | some q => simp
  | none =>
    rw [and_iff_right rfl]
    cases hm : t.toList.filter (·.startsWith text) with
    | nil => exact iff_of_false nofun (hshort (by simp))
    | cons q rest =>
      cases rest with
      | nil => exact iff_of_false nofun (hshort (by simp))
      | cons r rest =>
        simp only [Lookup.ambiguous.injEq]
        constructor
        · rintro rfl
          exact ⟨by simp, rfl⟩
        · rintro ⟨-, rfl⟩
          rfl

/-- A scan gives nothing if no name starts with the text. -/
theorem scan_eq_absent_iff (hn : text ≠ "") :
    t.scan text = .absent ↔ ∀ q ∈ t.toList, q.startsWith text = false := by
  have hnil : (∀ q ∈ t.toList, q.startsWith text = false) ↔
      t.toList.filter (·.startsWith text) = [] := by
    simp only [List.filter_eq_nil_iff, Bool.not_eq_true]
  rw [scan, if_neg hn, hnil]
  cases hf : t.toList.find? (·.name = text) with
  | some q =>
    obtain ⟨hq, hqn⟩ := mem_of_find?_name hf
    have hm : q ∈ t.toList.filter (·.startsWith text) :=
      List.mem_filter.2 ⟨hq, startsWith_of_name_eq hqn⟩
    simp [List.ne_nil_of_mem hm]
  | none =>
    cases hm : t.toList.filter (·.startsWith text) with
    | nil => simp
    | cons q rest => cases rest <;> simp

/-- A text selects a part that starts with it if it is its name, or if no part is of that name
and no other one starts with it. -/
theorem startsWith_and_selects_iff (hp : p ∈ t.toList) :
    p.startsWith text = true ∧ t.Selects text p ↔
      p.name = text ∨ (∀ q ∈ t.toList, q.name ≠ text) ∧
        ∀ q ∈ t.toList, q.startsWith text = true ↔ q = p := by
  constructor
  · rintro ⟨hps, he | honly⟩
    · exact .inl he
    · by_cases he : p.name = text
      · exact .inl he
      · refine .inr ⟨fun q hq hqn => he ?_, fun q hq => ⟨honly q hq, fun hqp => hqp ▸ hps⟩⟩
        rw [← honly q hq (startsWith_of_name_eq hqn)]
        exact hqn
  · rintro (he | ⟨-, honly⟩)
    · exact ⟨startsWith_of_name_eq he, .inl he⟩
    · exact ⟨(honly p hp).2 rfl, .inr fun q hq => (honly q hq).1⟩

/-! ## Resolving -/

/-- If a part bears the very name `text`, the first one whose name starts with it does. -/
theorem Sorted.name_eq_of_first (h : t.Sorted) {f : Nat} (hf : f < t.parts.size)
    (hs : t.parts[f].startsWith text = true)
    (hno : ∀ j (hj : j < f), t.parts[j].startsWith text = false)
    (hq : q ∈ t.toList) (hqn : q.name = text) : t.parts[f] = q := by
  obtain ⟨j, hj, rfl⟩ := mem_toList_iff.1 hq
  rcases Nat.lt_trichotomy j f with hlt | rfl | hgt
  · have := hno j hlt
    rw [startsWith_of_name_eq hqn] at this
    cases this
  · rfl
  · have hlt := startOrder_eq_lt_iff.2 (String.lt_iff.1 (hqn ▸ h.lt hf hj hgt))
    rw [startOrder_eq_iff.2 (Part.startsWith_iff.1 hs)] at hlt
    cases hlt

/-- Wherever among the matching parts the search comes down, the answer is that of a scan. -/
theorem Wf.resolveAt_eq_scan (hw : t.Wf) (hn : text ≠ "") {i : Nat} (hi : t.parts[i]? = some p)
    (hs : p.startsWith text = true) : t.resolveAt text i = t.scan text := by
  have hmem {j : Nat} (hj : j < t.parts.size) : t.parts[j] ∈ t.toList :=
    mem_toList_iff.2 ⟨j, hj, rfl⟩
  obtain ⟨hi', rfl⟩ := Array.getElem?_eq_some_iff.1 hi
  obtain ⟨f, hf, he, hfs, hno⟩ := hw.sorted.firstMatch_spec hi' hs
  have hp := hw.minChars_le_iff_selects (hmem hi') hn hs
  have hq := hw.minChars_le_iff_selects (hmem hf) hn hfs
  rw [resolveAt, hi, he, Array.getElem?_eq_getElem hf]
  simp only
  split
  · rename_i hle
    exact ((hw.sorted.scan_eq_found_iff hn).2 ⟨hmem hi', hs, hp.1 hle⟩).symm
  · rename_i hip
    split
    · rename_i hle
      exact ((hw.sorted.scan_eq_found_iff hn).2 ⟨hmem hf, hfs, hq.1 hle⟩).symm
    · rename_i hfp
      rw [← hw.sorted.filter_startsWith hf hfs hno]
      refine ((scan_eq_ambiguous_iff hn).2 ⟨fun r hr hrn => ?_, ?_, rfl⟩).symm
      · -- A part of that very name would be the first match.
        rw [← hw.sorted.name_eq_of_first hf hfs hno hr hrn] at hrn
        exact hfp (hq.2 (.inl hrn))
      · -- A single match would be selected.
        by_contra hlt
        have hmatch {r : Part α} (hr : r ∈ t.toList) (hrs : r.startsWith text = true) :
            r ∈ t.toList.filter (·.startsWith text) := List.mem_filter.2 ⟨hr, hrs⟩
        have hpos := List.length_pos_of_mem (hmatch (hmem hi') hs)
        have hlen : (t.toList.filter (·.startsWith text)).length = 1 := by omega
        obtain ⟨x, hx⟩ := List.length_eq_one_iff.1 hlen
        have hone {r : Part α} (hr : r ∈ t.toList) (hrs : r.startsWith text = true) : r = x :=
          List.mem_singleton.1 (hx ▸ hmatch hr hrs)
        refine hip (hp.2 (.inr fun r hr hrs => ?_))
        rw [hone hr hrs, hone (hmem hi') hs]

theorem Sorted.ascends_startOrder (h : t.Sorted) (text : String) :
    Ascends (fun p => startOrder p.name.toList text.toList) t.parts := by
  intro i j hi hj hij
  have hlt := String.lt_iff.1 (h.lt hi hj hij)
  exact ⟨startOrder_lt_of_lt hlt, startOrder_gt_of_lt hlt⟩

/-- Resolving by halving gives what a scan gives. -/
theorem Wf.resolve_eq_scan (hw : t.Wf) (text : String) : t.resolve text = t.scan text := by
  unfold resolve
  split
  · rename_i hn
    rw [scan, if_pos hn]
  · rename_i hn
    split
    · rename_i i hg
      refine ((scan_eq_absent_iff hn).2 fun q hq => ?_).symm
      obtain ⟨j, hj, rfl⟩ := mem_toList_iff.1 hq
      obtain ⟨-, hgap⟩ := bisect_gap (hw.sorted.ascends_startOrder text) hg
      refine Bool.eq_false_iff.2 fun hs => ?_
      have he := startOrder_eq_iff.2 (Part.startsWith_iff.1 hs)
      rcases Nat.lt_or_ge j i with hlt | hge
      · rw [(hgap j hj).1 hlt] at he
        cases he
      · rw [(hgap j hj).2 hge] at he
        cases he
    · rename_i i hf
      obtain ⟨p, hp, he⟩ := bisect_found hf
      exact hw.resolveAt_eq_scan hn hp (Part.startsWith_iff.2 (startOrder_eq_iff.1 he))

/-- The full name of what a text stands for stands for it too, also if it starts the names of
others. -/
theorem Wf.resolve_name (hw : t.Wf) (hr : t.resolve text = .found p) :
    t.resolve p.name = .found p := by
  have hn : text ≠ "" := by
    rintro rfl
    cases hr
  rw [hw.resolve_eq_scan, hw.sorted.scan_eq_found_iff hn] at hr
  obtain ⟨hp, hs, -⟩ := hr
  have hpn : p.name ≠ "" := by
    intro he
    have hpre := Part.startsWith_iff.1 hs
    rw [he] at hpre
    exact hn (String.toList_eq_nil_iff.1 (List.prefix_nil.1 hpre))
  rw [hw.resolve_eq_scan, hw.sorted.scan_eq_found_iff hpn]
  exact ⟨hp, startsWith_of_name_eq rfl, .inl rfl⟩

/-- After any changes a text resolves to what looking at all names gives, on whichever of the
parts that start with it the search comes down. The empty text stands for nothing. Any other
stands for the part of that name; if there is none, for the only part that starts with it; and
it is ambiguous if there are several. -/
theorem resolve_ofChanges (changes : List (TableChange α)) (text : String) :
    let t := ofChanges changes
    t.resolve text = t.scan text ∧
      (text = "" → t.resolve text = .absent) ∧
      (text ≠ "" →
        (∀ p, t.resolve text = .found p ↔ p ∈ t.toList ∧
          (p.name = text ∨ (∀ q ∈ t.toList, q.name ≠ text) ∧
            ∀ q ∈ t.toList, q.startsWith text = true ↔ q = p)) ∧
        (∀ ps, t.resolve text = .ambiguous ps ↔ (∀ q ∈ t.toList, q.name ≠ text) ∧
          2 ≤ ps.length ∧ ps = t.toList.filter (·.startsWith text)) ∧
        (t.resolve text = .absent ↔ ∀ q ∈ t.toList, q.startsWith text = false) ∧
        ∀ i p, t.parts[i]? = some p → p.startsWith text = true →
          t.resolveAt text i = t.resolve text) := by
  intro t
  have hw : t.Wf := wf_ofChanges changes
  rw [hw.resolve_eq_scan text]
  refine ⟨rfl, fun hn => by rw [scan, if_pos hn], fun hn => ⟨fun p => ?_, fun ps => ?_, ?_, ?_⟩⟩
  · rw [hw.sorted.scan_eq_found_iff hn]
    exact and_congr_right startsWith_and_selects_iff
  · exact scan_eq_ambiguous_iff hn
  · exact scan_eq_absent_iff hn
  · intro i p hi hs
    exact hw.resolveAt_eq_scan hn hi hs

end PartTable

end Ensembles
