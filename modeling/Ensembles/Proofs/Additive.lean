import Ensembles.Proofs.Along
import Ensembles.Proofs.Depth
import Ensembles.Proofs.OwnedNatives

/-!
# Declarations only add

A declaration finds ensembles, makes new ones and adds procedures. What could take something away
is only that a new command replaces the one of its name. At the top level there is no command of
the name where one is made, and a private name is taken only by the ensemble that it is made from
(`Catalog.Tidy.privateName_free`), as long as no other commands lie in the private area. So
whatever a declaration says, and wherever it fails, all that there was is still there
(`Catalog.Extends`), and nothing but the catalogue is changed
(`Interpreter.declarations_additive`).
-/

namespace Ensembles

variable {α β γ : Type}

/-! ## Catalogues that extend others -/

/-- The same ensemble, with the same parts and perhaps others of other names. How far the names of
the parts may be abbreviated is another matter. -/
structure Ensemble.Grows (e x : Ensemble) : Prop extends Ensemble.Stays e x where
  home : e.home = x.home
  parts : ∀ item ∈ e.parts.contents, item ∈ x.parts.contents
  new : ∀ item ∈ x.parts.contents, item ∈ e.parts.contents ∨
    ∀ old ∈ e.parts.contents, old.1 ≠ item.1

namespace Ensemble.Grows

variable {e x y : Ensemble}

theorem refl (e : Ensemble) : e.Grows e := ⟨⟨rfl, rfl, rfl⟩, rfl, fun _ h => h, fun _ => .inl⟩

theorem trans (h : e.Grows x) (h' : x.Grows y) : e.Grows y where
  toStays := h.toStays.trans h'.toStays
  home := h.home.trans h'.home
  parts item hi := h'.parts item (h.parts item hi)
  new item hi := by
    obtain hx | hnew := h'.new item hi
    · exact h.new item hx
    · exact .inr fun old ho => hnew old (h.parts old ho)

end Ensemble.Grows

namespace Catalog

/-- All commands and ensembles of `c` are in `c'`, with all their parts; what else is in `c'` is
new, and has a handle, an id or a name that nothing in `c` has. -/
structure Extends (c c' : Catalog) : Prop where
  root : c.registry.root = c'.registry.root
  issuedHandles : c.commands.issued ≤ c'.commands.issued
  issuedIds : c.registry.issued ≤ c'.registry.issued
  names : ∀ name h, c.commands.handleOf? name = some h → c'.commands.handleOf? name = some h
  bound : ∀ h id, c.registry.idOf? h = some id → c'.registry.idOf? h = some id
  commands : ∀ a ∈ c.commands.entries, a ∈ c'.commands.entries
  newCommands : ∀ a ∈ c'.commands.entries, a ∈ c.commands.entries ∨
    c.commands.issued < a.handle.number ∧ ∀ old ∈ c.commands.entries, old.name ≠ a.name
  ensembles : ∀ e ∈ c.registry.ensembles, ∃ x ∈ c'.registry.ensembles, e.Grows x
  newEnsembles : ∀ x ∈ c'.registry.ensembles, (∃ e ∈ c.registry.ensembles, e.Grows x) ∨
    c.registry.issued < x.id.number ∧ c.commands.issued < x.command.number

theorem Extends.refl (c : Catalog) : c.Extends c where
  root := rfl
  issuedHandles := Nat.le_refl _
  issuedIds := Nat.le_refl _
  names _ _ := id
  bound _ _ := id
  commands _ := id
  newCommands _ := .inl
  ensembles e he := ⟨e, he, .refl e⟩
  newEnsembles e he := .inl ⟨e, he, .refl e⟩

theorem Extends.trans {c c' c'' : Catalog} (h : c.Extends c') (h' : c'.Extends c'') :
    c.Extends c'' where
  root := h.root.trans h'.root
  issuedHandles := Nat.le_trans h.issuedHandles h'.issuedHandles
  issuedIds := Nat.le_trans h.issuedIds h'.issuedIds
  names name handle hn := h'.names name handle (h.names name handle hn)
  bound handle id hb := h'.bound handle id (h.bound handle id hb)
  commands a ha := h'.commands a (h.commands a ha)
  newCommands a ha := by
    obtain ha | ⟨hlt, hname⟩ := h'.newCommands a ha
    · exact h.newCommands a ha
    · exact .inr ⟨Nat.lt_of_le_of_lt h.issuedHandles hlt,
        fun old ho => hname old (h.commands old ho)⟩
  ensembles e he := by
    obtain ⟨x, hx, hex⟩ := h.ensembles e he
    obtain ⟨y, hy, hxy⟩ := h'.ensembles x hx
    exact ⟨y, hy, hex.trans hxy⟩
  newEnsembles y hy := by
    obtain ⟨x, hx, hxy⟩ | ⟨hid, hcommand⟩ := h'.newEnsembles y hy
    · obtain ⟨e, he, hex⟩ | ⟨hid, hcommand⟩ := h.newEnsembles x hx
      · exact .inl ⟨e, he, hex.trans hxy⟩
      · rw [hxy.id, hxy.command] at *
        exact .inr ⟨hid, hcommand⟩
    · exact .inr ⟨Nat.lt_of_le_of_lt h.issuedIds hid,
        Nat.lt_of_le_of_lt h.issuedHandles hcommand⟩

variable {root name : String} {c c' : Catalog} {id parent : EnsembleId} {e p : Ensemble}
  {r : Registry} {f : Ensemble → Ensemble}

/-- Where no command goes, each name that there was leads where it did. -/
theorem names_of_commands (hw : c.commands.Wf) (hw' : c'.commands.Wf)
    (hc : ∀ a ∈ c.commands.entries, a ∈ c'.commands.entries) (name : String) (h : Handle)
    (hn : c.commands.handleOf? name = some h) : c'.commands.handleOf? name = some h := by
  obtain ⟨a, ha, hname, hh⟩ := (CommandTable.handleOf?_eq_some_iff hw).1 hn
  exact (CommandTable.handleOf?_eq_some_iff hw').2 ⟨a, hc a ha, hname, hh⟩

/-- Where no ensemble goes, each command that was bound to one still is. -/
theorem bound_of_ensembles (hw : c.registry.Wf) (hw' : c'.registry.Wf)
    (hc : ∀ e ∈ c.registry.ensembles, ∃ x ∈ c'.registry.ensembles, e.Grows x) (h : Handle)
    (id : EnsembleId) (hb : c.registry.idOf? h = some id) : c'.registry.idOf? h = some id := by
  obtain ⟨e, he, hcommand, hid⟩ := hw.idOf?_eq_some_iff.1 hb
  obtain ⟨x, hx, hg⟩ := hc e he
  exact hw'.idOf?_eq_some_iff.2 ⟨x, hx, hg.command ▸ hcommand, hg.id ▸ hid⟩

/-! ## The private area -/

/-- The name lies where the commands of nested ensembles do. -/
def Private (root name : String) : Prop := (root ++ "::subensembles::").toList <+: name.toList

instance : Decidable (Private root name) := inferInstanceAs (Decidable (_ <+: _))

/-- All commands in the private area are those of nested ensembles. -/
def Reserved (root : String) (c : Catalog) : Prop :=
  ∀ a ∈ c.commands.entries, Private root a.name →
    ∃ e ∈ c.registry.ensembles, e.command = a.handle ∧ e.parent ≠ none

instance : Decidable (Reserved root c) :=
  inferInstanceAs (Decidable (∀ a ∈ c.commands.entries, Private root a.name →
    ∃ e ∈ c.registry.ensembles, e.command = a.handle ∧ e.parent ≠ none))

/-- Commands and ensembles go together, and there are none but nested ones in the private area. -/
structure Tidy (root : String) (c : Catalog) : Prop where
  wf : c.Wf root
  reserved : c.Reserved root

theorem private_privateName (hroot : c.registry.root = root) (id : EnsembleId) (name : String) :
    Private root (c.registry.privateName id name) := by
  have hname : c.registry.privateName id name =
      root ++ "::subensembles::" ++ (id.number.repr ++ ("::" ++ name)) := by
    rw [Registry.privateName, hroot, String.append_assoc, String.append_assoc]
  rw [Private, hname, String.toList_append (s := root ++ "::subensembles::")]
  exact List.prefix_append ..

/-- The private name of a part that is not there is free. -/
theorem Tidy.privateName_free (ht : c.Tidy root) (hp : c.registry.get? parent = some p)
    (hn : p.parts.find? name = none) :
    c.commands.find? (c.registry.privateName parent name) = none := by
  rw [CommandTable.find?_eq_none_iff ht.wf.commands]
  -- A command of that name belongs to a nested ensemble, and the name says where that hangs: in
  -- `parent`, as the very part that is not there.
  intro a ha hname
  obtain ⟨e, he, hcommand, hparent⟩ :=
    ht.reserved a ha (hname ▸ private_privateName ht.wf.root parent name)
  obtain ⟨link, hlink⟩ := Option.ne_none_iff_exists'.1 hparent
  have hown := (ht.wf.owner he ha hcommand).2 link hlink
  obtain ⟨rfl, rfl⟩ := Registry.privateName_inj (hname.symm.trans hown)
  obtain ⟨q, hq, hqid, -, usage, hholds⟩ := ht.wf.registry.hangs e he link hlink
  obtain ⟨hpm, hpid⟩ := (Registry.get?_eq_some_iff ht.wf.registry).1 hp
  rw [ht.wf.registry.eq_of_id hq hpm (hqid.trans hpid.symm)] at hholds
  exact (PartTable.find?_eq_none_iff (ht.wf.registry.sorted p hpm)).1 hn _ hholds rfl

/-! ## Steps -/

/-- An insertion adds a part of a new name to the ensemble, and nothing to the others. -/
theorem grows_withParts (hw : r.Wf) (hp : p ∈ r.ensembles) {usage : Option String}
    {handler : Handler} {parts : PartTable Handler}
    (hi : p.parts.insert? name usage handler = some parts) {x : Ensemble} (hx : x ∈ r.ensembles) :
    x.Grows (x.withParts p.id parts) where
  toStays := x.stays_withParts p.id parts
  home := (x.home_withParts p.id parts).symm
  parts item h := (hw.mem_withParts hp hi hx).2 (.inl h)
  new item h := by
    obtain h | ⟨rfl, rfl⟩ := (hw.mem_withParts hp hi hx).1 h
    · exact .inl h
    · exact .inr ((PartTable.find?_eq_none_iff (hw.sorted x hx)).1 (PartTable.absent_of_insert? hi))

section Install

variable (he : r.ensembles = e :: c.registry.ensembles.map f)
  (hf : ∀ x ∈ c.registry.ensembles, x.Grows (f x)) (hc : e.command = c.commands.nextHandle)
include he hf hc

/-- A new ensemble with its command, where there is no command of the name. -/
theorem extends_install (hw : c.Wf root) (hw' : Wf root ⟨c.commands.install name .ensemble, r⟩)
    (hn : c.commands.find? name = none)
    (hroot : r.root = c.registry.root) (hissued : r.issued = c.registry.issued + 1)
    (hid : e.id = c.registry.nextId) : c.Extends ⟨c.commands.install name .ensemble, r⟩ := by
  have hcommands (a : CommandEntry) (ha : a ∈ c.commands.entries) :
      a ∈ (c.commands.install name .ensemble).entries := List.mem_cons_of_mem _ ha
  have hensembles (x : Ensemble) (hx : x ∈ c.registry.ensembles) : ∃ y ∈ r.ensembles, x.Grows y :=
    ⟨f x, he ▸ List.mem_cons_of_mem _ (List.mem_map_of_mem hx), hf x hx⟩
  exact {
    root := hroot.symm
    issuedHandles := Nat.le_succ _
    issuedIds := Nat.le_of_lt (Nat.lt_of_lt_of_eq (Nat.lt_succ_self _) hissued.symm)
    names := names_of_commands hw.commands hw'.commands hcommands
    bound := bound_of_ensembles hw.registry hw'.registry hensembles
    commands := hcommands
    newCommands := List.forall_mem_cons.2
      ⟨.inr ⟨Nat.lt_succ_self _, (CommandTable.find?_eq_none_iff hw.commands).1 hn⟩,
        fun a ha => .inl ha⟩
    ensembles := hensembles
    newEnsembles := by
      rw [he, List.forall_mem_cons, List.forall_mem_map, hid, hc]
      exact ⟨.inr ⟨Nat.lt_succ_self _, Nat.lt_succ_self _⟩, fun x hx => .inl ⟨x, hx, hf x hx⟩⟩ }

theorem Reserved.install (hr : c.Reserved root) (hname : Private root name → e.parent ≠ none) :
    Reserved root ⟨c.commands.install name .ensemble, r⟩ := by
  refine List.forall_mem_cons.2 ⟨fun hp => ?_, fun a ha hp => ?_⟩
  · exact ⟨e, he ▸ List.mem_cons_self .., hc, hname hp⟩
  · obtain ⟨x, hx, hcommand, hparent⟩ := hr a ha hp
    have hstays := (hf x hx).toStays
    exact ⟨f x, he ▸ List.mem_cons_of_mem _ (List.mem_map_of_mem hx),
      hstays.command ▸ hcommand, hstays.parent ▸ hparent⟩

end Install

/-- A new nested ensemble comes with its command and as a new part of the one it hangs in. -/
theorem Wf.createNested_of_free (hw : c.Wf root) (hp : c.registry.get? parent = some p)
    (hn : p.parts.find? name = none)
    (hf : c.commands.find? (c.registry.privateName parent name) = none) :
    ∃ parts, p.parts.insert? name none (.ensemble c.commands.nextHandle) = some parts ∧
      (c.createNested parent name).catalog =
        ⟨c.commands.install (c.registry.privateName parent name) .ensemble,
          (c.registry.add c.commands.nextHandle (some ⟨parent, name⟩)).modifyParts parent
            fun _ => parts⟩ := by
  have hclear := hw.delete_of_absent hf
  obtain ⟨hrefused, -⟩ | ⟨-, -, -, hgone, -⟩ | ⟨-, q, parts, -, -, hq, hi, -, hc⟩ :=
    createNested_cases hw parent name
  · exact absurd hn (hrefused p hp)
  · rw [hclear] at hgone
    cases hgone.symm.trans hp
  · rw [hclear] at hq hc
    obtain rfl : p = q := Option.some.inj (hp.symm.trans hq)
    exact ⟨parts, hi, hc⟩

/-- Where no command has its private name, a new nested ensemble takes nothing away. -/
theorem Wf.extends_createNested (hw : c.Wf root) (hp : c.registry.get? parent = some p)
    (hn : p.parts.find? name = none)
    (hf : c.commands.find? (c.registry.privateName parent name) = none) :
    c.Extends (c.createNested parent name).catalog := by
  obtain ⟨parts, hi, hc⟩ := hw.createNested_of_free hp hn hf
  obtain ⟨hpm, rfl⟩ := (Registry.get?_eq_some_iff hw.registry).1 hp
  have he := Registry.modifyParts_add hw.registry hpm c.commands.nextHandle
    (some ⟨p.id, name⟩) parts
  have hwf := hw.createNested p.id name
  rw [hc] at hwf ⊢
  exact extends_install he (fun x hx => grows_withParts hw.registry hpm hi hx) rfl hw hwf hf rfl rfl
    rfl

/-- The step only adds to the catalogue, and no native loses its owner. -/
structure Adds (root : String) (c : Catalog) (edit : Edit α) : Prop where
  tidy : edit.catalog.Tidy root
  larger : c.Extends edit.catalog
  freed : edit.freed = []

theorem Tidy.adds_refuse (ht : c.Tidy root) (cause : Cause) :
    c.Adds root (c.refuse cause : Edit α) :=
  ⟨ht, .refl c, rfl⟩

theorem Tidy.adds_keep (ht : c.Tidy root) (a : α) : c.Adds root (c.keep a) :=
  ⟨ht, .refl c, rfl⟩

theorem Tidy.adds_createTop (ht : c.Tidy root) (hname : ¬ Private root name)
    (hn : c.commands.find? name = none) : c.Adds root (c.createTop name) := by
  have hwf := ht.wf.createTop name
  unfold createTop at hwf ⊢
  split
  · exact ht.adds_refuse _
  · rename_i hempty
    rw [if_neg hempty, ht.wf.put_of_absent hn] at hwf
    rw [ht.wf.put_of_absent hn]
    have he : (c.registry.add c.commands.nextHandle none).ensembles =
        c.registry.fresh c.commands.nextHandle none :: c.registry.ensembles.map id := by
      rw [List.map_id]
      rfl
    have hf (x : Ensemble) (_ : x ∈ c.registry.ensembles) : x.Grows (id x) := .refl x
    exact {
      tidy := ⟨hwf, ht.reserved.install he hf rfl fun hp => absurd hp hname⟩
      larger := extends_install he hf rfl ht.wf hwf hn rfl rfl rfl
      freed := rfl }

/-- The command of a new nested ensemble takes the place of none, so the ensemble that it hangs in
stays where it is. -/
theorem Tidy.adds_createNested (ht : c.Tidy root) (parent : EnsembleId) (name : String) :
    c.Adds root (c.createNested parent name) := by
  have hwf := ht.wf.createNested parent name
  have hadds {p : Ensemble} (hp : c.registry.get? parent = some p)
      (hn : p.parts.find? name = none) : c.Adds root (c.createNested parent name) := by
    have hfree := ht.privateName_free hp hn
    obtain ⟨parts, hi, hc⟩ := ht.wf.createNested_of_free hp hn hfree
    obtain ⟨hpm, rfl⟩ := (Registry.get?_eq_some_iff ht.wf.registry).1 hp
    have he := Registry.modifyParts_add ht.wf.registry hpm c.commands.nextHandle
      (some ⟨p.id, name⟩) parts
    have hf (x : Ensemble) (hx : x ∈ c.registry.ensembles) : x.Grows (x.withParts p.id parts) :=
      grows_withParts ht.wf.registry hpm hi hx
    exact {
      tidy := ⟨hwf, hc ▸ ht.reserved.install he hf rfl fun _ => nofun⟩
      larger := ht.wf.extends_createNested hp hn hfree
      freed := by rw [freed_createNested hp hn, ht.wf.put_of_absent hfree] }
  obtain ⟨-, cause, h⟩ | ⟨p, hp, hn, -⟩ | ⟨p, -, -, hp, hn, -⟩ :=
    createNested_cases ht.wf parent name
  · rw [h]
    exact ht.adds_refuse cause
  · exact hadds hp hn
  · exact hadds hp hn

theorem Tidy.adds_locateTop (ht : c.Tidy root) (hname : ¬ Private root name) :
    c.Adds root (c.locateTop name) := by
  unfold locateTop
  split
  · rename_i hn
    exact ht.adds_createTop hname (CommandTable.find?_of_unnamed hn)
  · split
    · exact ht.adds_refuse _
    · exact ht.adds_keep _

theorem Tidy.adds_locateNested (ht : c.Tidy root) (parent : EnsembleId) (name : String) :
    c.Adds root (c.locateNested parent name) := by
  unfold locateNested
  split
  · exact ht.adds_createNested parent name
  · split
    · exact ht.adds_refuse _
    · exact ht.adds_keep _
  · exact ht.adds_refuse _

theorem Tidy.extends_addProcedure (ht : c.Tidy root) {signature : Signature} {body : String}
    (h : c.addProcedure id name signature body = .ok c') : c.Extends c' ∧ c'.Tidy root := by
  have hwf := ht.wf.addProcedure h
  obtain ⟨_, -, ha⟩ := addProcedure_eq_ok h
  obtain ⟨q, parts, hq, hi, rfl⟩ := addPart_eq_ok ha
  obtain ⟨hqm, rfl⟩ := (Registry.get?_eq_some_iff ht.wf.registry).1 hq
  have hf (x : Ensemble) (hx : x ∈ c.registry.ensembles) :
      x.withParts q.id parts ∈ (c.registry.modifyParts q.id fun _ => parts).ensembles ∧
        x.Grows (x.withParts q.id parts) :=
    ⟨List.mem_map_of_mem hx, grows_withParts ht.wf.registry hqm hi hx⟩
  refine ⟨?_, hwf, fun a ha hp => ?_⟩
  · exact {
      root := rfl
      issuedHandles := Nat.le_refl _
      issuedIds := Nat.le_refl _
      names := fun _ _ => id
      bound := fun _ _ => id
      commands := fun _ => id
      newCommands := fun _ => .inl
      ensembles := fun x hx => ⟨_, hf x hx⟩
      newEnsembles := List.forall_mem_map.2 fun x hx => .inl ⟨x, hx, (hf x hx).2⟩ }
  · obtain ⟨x, hx, hcommand, hparent⟩ := ht.reserved a ha hp
    exact ⟨_, (hf x hx).1, (x.command_withParts _ _).trans hcommand,
      (x.parent_withParts _ _).symm ▸ hparent⟩

end Catalog

/-! ## Runs -/

namespace Run

variable {root : String} {x : Run α} {deeper : Deeper}

/-- The computation changes nothing but the catalogue, and only adds to that. -/
def Adds (root : String) (x : Run α) : Prop :=
  ∀ s, s.catalog.Tidy root → ∃ c, x.after s = { s with catalog := c } ∧
    s.catalog.Extends c ∧ c.Tidy root

theorem adds_quiet (hx : ∀ s, x.after s = s) : x.Adds root :=
  fun s ht => ⟨s.catalog, hx s, .refl _, ht⟩

theorem adds_bind {f : α → Run β} (hx : x.Adds root) (hf : ∀ a, (f a).Adds root) :
    (x >>= f).Adds root := by
  intro s ht
  obtain ⟨c, hc, hextends, ht'⟩ := hx s ht
  rw [after_bind, hc]
  cases x.outcome s with
  | error e => exact ⟨c, rfl, hextends, ht'⟩
  | ok a =>
    obtain ⟨c', hc', hextends', ht''⟩ := hf a { s with catalog := c } ht'
    exact ⟨c', hc', hextends.trans hextends', ht''⟩

theorem adds_discard (hx : x.Adds root) : (discard x).Adds root := fun s ht =>
  (after_discard x s).symm ▸ hx s ht

theorem adds_mapError {f : State → Error → Error} (hx : x.Adds root) : (x.mapError f).Adds root :=
  fun s ht => (after_mapError f x s).symm ▸ hx s ht

theorem adds_forM {f : γ → Run PUnit} (hf : ∀ a, (f a).Adds root) (l : List γ) :
    (l.forM f).Adds root := by
  induction l with
  | nil => exact adds_quiet fun _ => rfl
  | cons a l ih => exact adds_bind (hf a) fun _ => ih

theorem adds_edit {f : Catalog → Edit α} (hf : ∀ c : Catalog, c.Tidy root → c.Adds root (f c)) :
    (edit f).Adds root := by
  intro s ht
  have h := hf s.catalog ht
  refine ⟨_, ?_, h.larger, h.tidy⟩
  rw [after_edit, h.freed]
  rfl

/-! ## Declarations -/

theorem adds_locate {current : Option EnsembleId} {name : String}
    (hname : current = none → ¬ Catalog.Private root name) : (locate current name).Adds root := by
  cases current with
  | none => exact adds_edit fun c ht => ht.adds_locateTop (hname rfl)
  | some parent => exact adds_edit fun c ht => ht.adds_locateNested parent name

theorem adds_declareLeaf (id : EnsembleId) (keyword : String) (args : List String) :
    (declareLeaf id keyword args).Adds root := by
  unfold declareLeaf
  split
  · intro s ht
    obtain hs | ⟨name, signature, body, c, hc, hs⟩ := after_declarePart s id keyword args
    · exact ⟨s.catalog, hs, .refl _, ht⟩
    · exact ⟨c, hs, ht.extends_addProcedure hc⟩
  · exact adds_quiet fun _ => rfl

section Bodies

variable (hd : ∀ id commands, (deeper (.body id commands)).Adds root)
include hd

theorem adds_declareBody (id : EnsembleId) (body : String) :
    (declareBody deeper id body).Adds root :=
  adds_bind (adds_quiet (after_parse _ _)) fun commands => adds_discard (hd id commands)

/-- Only the name of a top-level ensemble matters: the private area is open to nested ones. -/
theorem adds_declareEnsemble (current : Option EnsembleId) (args : List String)
    (hname : current = none → ∀ name ∈ args.head?, ¬ Catalog.Private root name) :
    (declareEnsemble deeper current args).Adds root := by
  fun_induction declareEnsemble deeper current args with
  | case1 current => exact adds_quiet fun _ => rfl
  | case2 current name => exact adds_discard (adds_locate fun hc => hname hc name rfl)
  | case3 current name body =>
    exact adds_bind (adds_locate fun hc => hname hc name rfl) fun id => adds_declareBody hd id body
  | case4 current name keyword args _ ih =>
    refine adds_bind (adds_locate fun hc => hname hc name rfl) fun id => ?_
    split
    · exact ih id fun hc => absurd hc (Option.some_ne_none id)
    · exact adds_declareLeaf id keyword args

theorem adds_declare (id : EnsembleId) (words : List String) :
    (declare deeper id words).Adds root := by
  unfold declare
  split
  · exact adds_quiet fun _ => rfl
  · split
    · exact adds_declareEnsemble hd (some id) _ fun hc => absurd hc (Option.some_ne_none id)
    · exact adds_declareLeaf id _ _

theorem adds_declareAll (id : EnsembleId) (commands : List Command) :
    (declareAll deeper id commands).Adds root :=
  adds_forM (fun _ => adds_mapError (adds_declare hd id _)) commands

end Bodies

/-- The body of an ensemble only adds, however deep the bodies in it go. -/
theorem adds_perform (levels : Nat) (id : EnsembleId) (commands : List Command) :
    (perform levels (.body id commands)).Adds root := by
  induction levels generalizing id commands with
  | zero => exact adds_quiet fun _ => rfl
  | succ levels ih =>
    exact adds_bind (adds_declareAll ih id commands) fun _ => adds_quiet fun _ => rfl

/-- The command that is bound to the builtin `ensemble`, with a name outside the private area. -/
theorem adds_invoke {s : State} (ht : s.catalog.Tidy root) {word name : String}
    {a : CommandEntry} (ha : s.catalog.commands.find? word = some a)
    (hb : a.target = .builtin .ensemble) (hname : ¬ Catalog.Private root name) (levels : Nat)
    (rest : List String) :
    ∃ c, (invoke (perform levels) (word :: name :: rest)).after s = { s with catalog := c } ∧
      s.catalog.Extends c ∧ c.Tidy root := by
  have hbuiltin : (builtin (perform levels) .ensemble (name :: rest)).Adds root :=
    adds_bind (adds_declareEnsemble (adds_perform levels) none _ fun _ _ hn =>
      Option.some.inj hn ▸ hname) fun _ => adds_quiet fun _ => rfl
  obtain ⟨handle, _, target⟩ := a
  subst hb
  have hinvoke : invoke (perform levels) (word :: name :: rest) s =
      builtin (perform levels) .ensemble (name :: rest) s := by
    simp only [invoke, ha]
  have hafter := hbuiltin s ht
  rwa [after, ← hinvoke] at hafter

end Run

namespace Interpreter

/-- Where the private area is only that of nested ensembles, a declaration by a name outside of it,
in a script or by the host, changes nothing but the catalogue and only adds to that, whatever it
declares and whether it succeeds or fails. The private area stays as it should be. -/
theorem declarations_additive {root : String} {i : Interpreter} (hi : Reachable root i)
    (hr : i.state.catalog.Reserved root) {word name : String} {a : CommandEntry}
    (ha : i.state.catalog.commands.find? word = some a) (hb : a.target = .builtin .ensemble)
    (hname : ¬ Catalog.Private root name) (rest : List String) :
    (∃ c, (Run.invoke (perform i.limit) (word :: name :: rest)).after i.state =
        { i.state with catalog := c } ∧
      i.state.catalog.Extends c ∧ c.Reserved root) ∧
    ∃ c, (i.invoke (word :: name :: rest)).2 = { i with state := { i.state with catalog := c } } ∧
      i.state.catalog.Extends c ∧ c.Reserved root := by
  have ht : i.state.catalog.Tidy root := ⟨hi.wf, hr⟩
  have hinvoke (levels : Nat) := Run.adds_invoke ht ha hb hname levels rest
  constructor
  · obtain ⟨c, hc, hextends, ht'⟩ := hinvoke i.limit
    exact ⟨c, hc, hextends, ht'.reserved⟩
  · obtain ⟨limit, s⟩ := i
    rw [invoke_eq]
    cases limit with
    | zero => exact ⟨s.catalog, rfl, .refl _, hr⟩
    | succ levels =>
      obtain ⟨c, hc, hextends, ht'⟩ := hinvoke levels
      exact ⟨c, congrArg _ hc, hextends, ht'.reserved⟩

/-- A declaration that makes an ensemble and then stops at a part that there is already. -/
theorem declarations_additive_stopped :
    let i := ((new "::r" 5).eval "ensemble e {ensemble n {part p x {set x}}}").2
    let argv := ["ensemble", "e", "ensemble m {part q y {}}; ensemble n {part p z {}}"]
    i.state.catalog.Reserved "::r" ∧ ¬ Catalog.Private "::r" "e" ∧
      (i.invoke argv).1.isOk = false ∧ (i.invoke argv).2.state.catalog.registry.issued = 3 ∧
      ∃ c, (i.invoke argv).2 = { i with state := { i.state with catalog := c } } ∧
        i.state.catalog.Extends c := by
  intro i argv
  have hname : ¬ Catalog.Private "::r" "e" := by decide +kernel
  have hi : Reachable "::r" i := .eval _ (.new 5)
  have hstart : i.state.catalog.Reserved "::r" ∧
      ((i.state.catalog.commands.find? "ensemble").map fun a =>
        match a.target with | .builtin b => some b | _ => none) = some (some .ensemble) := by
    decide +kernel
  have hend : (i.invoke argv).1.isOk = false ∧
      (i.invoke argv).2.state.catalog.registry.issued = 3 := by
    decide +kernel
  obtain ⟨⟨handle, name, target⟩, ha, hb⟩ := Option.map_eq_some_iff.1 hstart.2
  cases target <;> cases hb
  obtain ⟨-, c, hc, hextends, -⟩ := declarations_additive hi hstart.1 ha rfl hname
    ["ensemble m {part q y {}}; ensemble n {part p z {}}"]
  exact ⟨hstart.1, hname, hend.1, hend.2, c, hc, hextends⟩

end Interpreter

end Ensembles
