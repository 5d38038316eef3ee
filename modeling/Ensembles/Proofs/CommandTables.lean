import Ensembles.CommandTable
import Ensembles.Proofs.Keys

/-!
# Tables of commands

The map from names to handles and the map from handles to commands agree (`CommandTable.Wf`), so
they may be read as one list of commands with names and handles of their own
(`find?_eq_some_iff`, `get?_eq_some_iff`). A removal takes just the command of its handle out of
both (`Wf.remove_eq`), and a new command comes into both where the one of its name has gone
(`Wf.put_of_absent`, `Wf.put_of_found`).
-/

namespace Ensembles

namespace CommandTable

/-- Names and handles tell commands apart, each name stands for the command that has it, and no
handle is ahead of the count. -/
structure Wf (t : CommandTable) : Prop where
  keys : t.byName.Pairwise fun x y => x.1 ≠ y.1
  handles : t.entries.Pairwise fun a b => a.handle ≠ b.handle
  named : ∀ name h, (name, h) ∈ t.byName ↔ ∃ a ∈ t.entries, a.name = name ∧ a.handle = h
  issued : ∀ a ∈ t.entries, a.handle.number ≤ t.issued

/-- The table without the commands of the handles `hs`. -/
def erase (t : CommandTable) (hs : List Handle) : CommandTable :=
  { t with
    byName := t.byName.filter (·.2 ∉ hs)
    entries := t.entries.filter (·.handle ∉ hs) }

/-- The table with a new command, which replaces none. -/
def install (t : CommandTable) (name : String) (target : Target) : CommandTable :=
  ⟨(name, t.nextHandle) :: t.byName, ⟨t.nextHandle, name, target⟩ :: t.entries, t.issued + 1⟩

variable {t : CommandTable} {a b : CommandEntry} {name : String} {target : Target} {h : Handle}
  {hs hs' : List Handle}

/-! ## Lookups -/

theorem handleOf?_eq_some_iff (hw : t.Wf) :
    t.handleOf? name = some h ↔ ∃ a ∈ t.entries, a.name = name ∧ a.handle = h :=
  (lookup_eq_some_iff_mem hw.keys).trans (hw.named name h)

theorem get?_eq_some_iff (hw : t.Wf) : t.get? h = some a ↔ a ∈ t.entries ∧ a.handle = h :=
  find?_key_eq_some_iff hw.handles

theorem find?_eq_some_iff (hw : t.Wf) : t.find? name = some a ↔ a ∈ t.entries ∧ a.name = name := by
  unfold find?
  simp only [Option.bind_eq_some_iff, handleOf?_eq_some_iff hw, get?_eq_some_iff hw]
  constructor
  · rintro ⟨_, ⟨b, hb, hn, rfl⟩, ha, hh⟩
    exact ⟨ha, eq_of_key_eq hw.handles ha hb hh ▸ hn⟩
  · rintro ⟨ha, hn⟩
    exact ⟨a.handle, ⟨a, ha, hn, rfl⟩, ha, rfl⟩

theorem mem_of_find? (hf : t.find? name = some a) : a ∈ t.entries := by
  obtain ⟨h, -, hg⟩ := Option.bind_eq_some_iff.1 hf
  exact List.mem_of_find?_eq_some hg

theorem Wf.eq_of_name_eq (hw : t.Wf) (ha : a ∈ t.entries) (hb : b ∈ t.entries)
    (hn : a.name = b.name) : a = b :=
  Option.some.inj (((find?_eq_some_iff hw).2 ⟨ha, hn⟩).symm.trans
    ((find?_eq_some_iff hw).2 ⟨hb, rfl⟩))

theorem find?_eq_none_iff (hw : t.Wf) : t.find? name = none ↔ ∀ a ∈ t.entries, a.name ≠ name := by
  simp only [Option.eq_none_iff_forall_ne_some, ne_eq, find?_eq_some_iff hw, not_and]

/-- The map from names to handles finds what a search among the commands would. -/
theorem Wf.handleOf?_eq (hw : t.Wf) (name : String) :
    t.handleOf? name = (t.find? name).map (·.handle) := by
  refine Option.ext fun h => ?_
  simp only [handleOf?_eq_some_iff hw, Option.map_eq_some_iff, find?_eq_some_iff hw, and_assoc]

theorem handleOf?_of_find? (hf : t.find? name = some a) : t.handleOf? name = some a.handle := by
  obtain ⟨h, hh, hg⟩ := Option.bind_eq_some_iff.1 hf
  have hah : a.handle = h := by simpa using List.find?_some hg
  rwa [hah]

theorem Wf.handleOf?_of_absent (hw : t.Wf) (hf : t.find? name = none) :
    t.handleOf? name = none := by
  rw [hw.handleOf?_eq, hf]
  rfl

theorem find?_of_unnamed (hh : t.handleOf? name = none) : t.find? name = none := by
  rw [find?, hh, Option.bind_none]

theorem nativesOf_of_mem (hw : t.Wf) (ha : a ∈ t.entries) :
    t.nativesOf a.handle = a.target.natives := by
  rw [nativesOf, (get?_eq_some_iff hw).2 ⟨ha, rfl⟩]
  rfl

theorem nativesOf_of_find? (hw : t.Wf) (hf : t.find? name = some a) :
    t.nativesOf a.handle = a.target.natives :=
  nativesOf_of_mem hw ((find?_eq_some_iff hw).1 hf).1

/-- Names and handles come to the same commands, so there are as many of both. -/
theorem Wf.byName_perm (hw : t.Wf) :
    t.byName.Perm (t.entries.map fun a => (a.name, a.handle)) := by
  have hkeys : t.byName.Nodup := hw.keys.imp fun hne he => hne (congrArg Prod.fst he)
  have hentries : (t.entries.map fun a => (a.name, a.handle)).Nodup :=
    List.pairwise_map.2 (hw.handles.imp fun hne he => hne (congrArg Prod.snd he))
  refine (List.perm_ext_iff_of_nodup hkeys hentries).2 fun x => ?_
  rw [hw.named x.1 x.2, List.mem_map]
  simp only [Prod.ext_iff]

/-! ## Removals -/

theorem mem_erase : a ∈ (t.erase hs).entries ↔ a ∈ t.entries ∧ a.handle ∉ hs := by
  simp [erase]

theorem Wf.erase (hw : t.Wf) (hs : List Handle) : (t.erase hs).Wf where
  keys := hw.keys.filter _
  handles := hw.handles.filter _
  named name h := by
    simp only [mem_erase]
    show (name, h) ∈ t.byName.filter (·.2 ∉ hs) ↔ _
    rw [List.mem_filter, hw.named, decide_eq_true_iff]
    exact ⟨fun ⟨⟨a, ha, hn, hh⟩, hm⟩ => ⟨a, ⟨ha, hh ▸ hm⟩, hn, hh⟩,
      fun ⟨a, ⟨ha, hm⟩, hn, hh⟩ => ⟨⟨a, ha, hn, hh⟩, hh ▸ hm⟩⟩
  issued a ha := hw.issued a (mem_erase.1 ha).1

theorem erase_of_forall (hn : ∀ x ∈ t.byName, x.2 ∉ hs) (he : ∀ a ∈ t.entries, a.handle ∉ hs) :
    t.erase hs = t := by
  rw [erase, List.filter_eq_self.2 fun x hx => decide_eq_true (hn x hx),
    List.filter_eq_self.2 fun a ha => decide_eq_true (he a ha)]

theorem erase_nil (t : CommandTable) : t.erase [] = t :=
  erase_of_forall (fun _ _ => List.not_mem_nil) fun _ _ => List.not_mem_nil

theorem erase_erase (t : CommandTable) (hs hs' : List Handle) :
    (t.erase hs).erase hs' = t.erase (hs ++ hs') := by
  simp only [erase, List.filter_filter, List.mem_append, not_or, Bool.decide_and, Bool.and_comm]

/-- It does not matter in which order and how often handles are listed. -/
theorem erase_congr (h : ∀ x, x ∈ hs ↔ x ∈ hs') : t.erase hs = t.erase hs' := by
  simp only [erase, h]

theorem mem_of_mem_remove (ha : a ∈ (t.remove h).entries) : a ∈ t.entries := by
  unfold remove at ha
  split at ha
  · exact ha
  · exact (List.mem_filter.1 ha).1

theorem erase_erase_of_mem (hm : h ∈ hs) : (t.erase [h]).erase hs = t.erase hs := by
  rw [erase_erase]
  refine erase_congr fun x => ⟨fun hx => ?_, List.mem_append_right _⟩
  rcases List.mem_append.1 hx with hx | hx
  · exact List.mem_singleton.1 hx ▸ hm
  · exact hx

/-- To remove a command is to take what has its handle out of both maps. -/
theorem Wf.remove_eq (hw : t.Wf) (h : Handle) : t.remove h = t.erase [h] := by
  unfold remove
  cases hg : t.get? h with
  | none =>
    have hnone (a : CommandEntry) (ha : a ∈ t.entries) : a.handle ∉ [h] := fun hm => by
      rw [(get?_eq_some_iff hw).2 ⟨ha, List.mem_singleton.1 hm⟩] at hg
      cases hg
    refine (erase_of_forall (fun x hx => ?_) hnone).symm
    obtain ⟨a, ha, -, hh⟩ := (hw.named x.1 x.2).1 hx
    exact hh ▸ hnone a ha
  | some a =>
    obtain ⟨ha, rfl⟩ := (get?_eq_some_iff hw).1 hg
    have hname : t.handleOf? a.name = some a.handle :=
      (handleOf?_eq_some_iff hw).2 ⟨a, ha, rfl, rfl⟩
    have hbyName : t.byName.filter (·.1 ≠ a.name) = t.byName.filter (·.2 ∉ [a.handle]) := by
      refine List.filter_congr fun x hx => ?_
      obtain ⟨b, hb, hn, hh⟩ := (hw.named x.1 x.2).1 hx
      have hsame : x.1 = a.name ↔ x.2 = a.handle := by
        rw [← hn, ← hh]
        exact ⟨fun h => congrArg _ (hw.eq_of_name_eq hb ha h),
          fun h => congrArg _ (eq_of_key_eq hw.handles hb ha h)⟩
      simp [hsame]
    rw [CommandTable.erase, ← hbyName]
    simp only [if_pos hname, List.mem_singleton, ne_eq]

theorem Wf.remove (hw : t.Wf) (h : Handle) : (t.remove h).Wf :=
  hw.remove_eq h ▸ hw.erase [h]

/-! ## Arrivals -/

theorem Wf.ne_nextHandle (hw : t.Wf) (ha : a ∈ t.entries) : a.handle ≠ t.nextHandle := by
  intro he
  have hle := hw.issued a ha
  rw [he] at hle
  exact Nat.not_succ_le_self _ hle

theorem Wf.install (hw : t.Wf) (hn : ∀ a ∈ t.entries, a.name ≠ name) :
    (t.install name target).Wf where
  keys := List.pairwise_cons.2 ⟨fun x hx => by
    obtain ⟨a, ha, han, -⟩ := (hw.named x.1 x.2).1 hx
    exact han ▸ (hn a ha).symm, hw.keys⟩
  handles := List.pairwise_cons.2 ⟨fun _ ha => (hw.ne_nextHandle ha).symm, hw.handles⟩
  named n h := by
    show (n, h) ∈ (name, t.nextHandle) :: t.byName ↔ ∃ a ∈ _ :: t.entries, _
    simp only [List.mem_cons, or_and_right, exists_or, exists_eq_left, Prod.mk.injEq, hw.named,
      eq_comm]
  issued := List.forall_mem_cons.2 ⟨Nat.le_refl _, fun a ha => Nat.le_succ_of_le (hw.issued a ha)⟩

/-- A new command replaces nothing where there is none of its name. -/
theorem Wf.put_of_absent (hw : t.Wf) (hf : t.find? name = none) (target : Target) :
    t.put name target = t.install name target := by
  have hfree : t.byName.filter (·.1 ≠ name) = t.byName := by
    refine List.filter_eq_self.2 fun x hx => decide_eq_true ?_
    obtain ⟨a, ha, hn, -⟩ := (hw.named x.1 x.2).1 hx
    exact hn ▸ (find?_eq_none_iff hw).1 hf a ha
  simp only [put, hw.handleOf?_of_absent hf, Option.elim_none, hfree]
  rfl

/-- A new command comes in the place of the one of its name. -/
theorem Wf.put_of_found (hw : t.Wf) (hf : t.find? name = some a) (target : Target) :
    t.put name target = (t.erase [a.handle]).install name target := by
  obtain ⟨ha, hn⟩ := (find?_eq_some_iff hw).1 hf
  have hfree : (t.erase [a.handle]).byName.filter (·.1 ≠ name) = (t.erase [a.handle]).byName := by
    refine List.filter_eq_self.2 fun x hx => decide_eq_true fun hxn => ?_
    obtain ⟨b, hb, hbn, -⟩ := ((hw.erase [a.handle]).named x.1 x.2).1 hx
    obtain ⟨hb, hm⟩ := mem_erase.1 hb
    rw [hw.eq_of_name_eq hb ha (hbn.trans (hxn.trans hn.symm))] at hm
    exact hm (List.mem_singleton_self _)
  simp only [put, handleOf?_of_find? hf, Option.elim_some, hw.remove_eq, hfree]
  rfl

theorem erase_install (hnew : t.nextHandle ∉ hs) :
    (t.install name target).erase hs = (t.erase hs).install name target := by
  have hnames : ((name, t.nextHandle) :: t.byName).filter (·.2 ∉ hs) =
      (name, t.nextHandle) :: t.byName.filter (·.2 ∉ hs) :=
    List.filter_cons_of_pos (decide_eq_true hnew)
  have hentries : (⟨t.nextHandle, name, target⟩ :: t.entries).filter (·.handle ∉ hs) =
      ⟨t.nextHandle, name, target⟩ :: t.entries.filter (·.handle ∉ hs) :=
    List.filter_cons_of_pos (decide_eq_true hnew)
  rw [erase, install, hnames, hentries]
  rfl

/-- A new command stays where the one whose place it took goes with others. -/
theorem Wf.erase_put (hw : t.Wf) (hf : t.find? name = some a) (hm : a.handle ∈ hs)
    (hnew : t.nextHandle ∉ hs) (target : Target) :
    (t.put name target).erase hs = (t.erase hs).install name target := by
  rw [hw.put_of_found hf, erase_install (t := t.erase [a.handle]) hnew,
    erase_erase_of_mem hm]

/-- A command that has just come goes without a trace but its number. -/
theorem Wf.remove_install (hw : t.Wf) (hn : ∀ a ∈ t.entries, a.name ≠ name) :
    (t.install name target).remove t.nextHandle = { t with issued := t.issued + 1 } := by
  have hnames : t.byName.filter (·.2 ∉ [t.nextHandle]) = t.byName := by
    refine List.filter_eq_self.2 fun x hx => decide_eq_true fun hm => ?_
    obtain ⟨a, ha, -, hh⟩ := (hw.named x.1 x.2).1 hx
    exact hw.ne_nextHandle ha (hh.trans (List.mem_singleton.1 hm))
  have hentries : t.entries.filter (·.handle ∉ [t.nextHandle]) = t.entries :=
    List.filter_eq_self.2 fun a ha => decide_eq_true fun hm =>
      hw.ne_nextHandle ha (List.mem_singleton.1 hm)
  rw [(hw.install hn).remove_eq, CommandTable.erase, CommandTable.install,
    List.filter_cons_of_neg (by simp), List.filter_cons_of_neg (by simp), hnames, hentries]

theorem Wf.put (hw : t.Wf) (name : String) (target : Target) : (t.put name target).Wf := by
  cases hf : t.find? name with
  | none =>
    rw [hw.put_of_absent hf]
    exact hw.install ((find?_eq_none_iff hw).1 hf)
  | some a =>
    obtain ⟨ha, hn⟩ := (find?_eq_some_iff hw).1 hf
    rw [hw.put_of_found hf]
    refine (hw.erase [a.handle]).install fun b hb hbn => ?_
    obtain ⟨hb, hm⟩ := mem_erase.1 hb
    rw [hw.eq_of_name_eq hb ha (hbn.trans hn.symm)] at hm
    exact hm (List.mem_singleton_self _)

/-! ## The builtin commands -/

/-- What the empty table has and builtin commands keep, the first table has. -/
theorem initial_induction {P : CommandTable → Prop} (hempty : P empty)
    (hput : ∀ t b, P t → P (t.put b.name (.builtin b))) : P initial := by
  have hfold (bs : List Builtin) (t : CommandTable) (ht : P t) :
      P (bs.foldl (fun t b => t.put b.name (.builtin b)) t) := by
    induction bs generalizing t with
    | nil => exact ht
    | cons b bs ih => exact ih _ (hput t b ht)
  exact hfold _ _ hempty

theorem wf_initial : initial.Wf :=
  initial_induction ⟨.nil, .nil, fun _ _ => iff_of_false nofun nofun, nofun⟩
    fun _ _ hw => hw.put _ _

/-- A table only gets the command that is put into it. -/
theorem mem_put (ha : a ∈ (t.put name target).entries) :
    a = ⟨t.nextHandle, name, target⟩ ∨ a ∈ t.entries := by
  refine (List.mem_cons.1 ha).imp_right fun ha => ?_
  cases hf : t.handleOf? name with
  | none =>
    rw [hf] at ha
    exact ha
  | some h =>
    rw [hf] at ha
    exact mem_of_mem_remove ha

theorem target_initial : ∀ a ∈ initial.entries, ∃ b, a.target = .builtin b := by
  refine initial_induction (P := fun t => ∀ a ∈ t.entries, ∃ b, a.target = .builtin b) nofun ?_
  intro t b ht a ha
  rcases mem_put ha with rfl | ha
  · exact ⟨b, rfl⟩
  · exact ht a ha

end CommandTable

end Ensembles
