import Ensembles.Native.Stock
import Ensembles.Proofs.Reachable

/-!
# Consistency

What the maps of a catalogue say about each other. Names lead to handles and these to commands,
commands to ids and these to ensembles, tables to what hangs in them and that back. Each map is
changed by itself, one entry after the other as an ensemble is destroyed, and a host or a native may
give a command any name, that of a nested ensemble's command among them.
`Interpreter.reachable_consistent` says that all the same no reachable interpreter has a link that
leads nowhere or does not lead back.
-/

namespace Ensembles

/-- The links between names, handles, commands, ensembles and parts agree; private names lie
under `root`. -/
structure Catalog.Consistent (root : String) (c : Catalog) : Prop where
  /-- No entry of a map is hidden behind another one. -/
  keys : (c.commands.byName.map (·.1)).Nodup ∧ (c.commands.entries.map (·.handle)).Nodup ∧
    (c.registry.byCommand.map (·.1)).Nodup ∧ (c.registry.ensembles.map (·.id)).Nodup
  /-- All commands are found under their names. -/
  found : ∀ a ∈ c.commands.entries, c.commands.find? a.name = some a
  /-- All ensembles are found under their ids and commands, and their commands are there. -/
  alive : ∀ e ∈ c.registry.ensembles, c.registry.get? e.id = some e ∧
    c.registry.bound? e.command = some e ∧ (c.commands.get? e.command).isSome = true
  /-- Names and handles correspond one to one: a name leads to the handle of the command that
  has it. -/
  handles : ∀ name h, c.commands.handleOf? name = some h ↔
    (c.commands.get? h).map (·.name) = some name
  /-- So do commands of ensembles and ids: a command leads to the id of the live ensemble that is
  bound to it. -/
  bound : ∀ h id, c.registry.idOf? h = some id ↔
    (c.registry.get? id).map (·.command) = some h
  /-- A command dispatches to an ensemble if and only if it has one that is alive. -/
  dispatchers : ∀ h a, c.commands.get? h = some a →
    (a.target = .ensemble ↔
      ∃ e, c.registry.bound? h = some e ∧ e.command = h ∧ c.registry.get? e.id = some e)
  /-- An ensemble is a part of another one if and only if it remembers that place. -/
  parts : ∀ id name h,
    ((c.registry.get? id).bind (·.parts.find? name)).map (·.handler) = some (.ensemble h) ↔
      (c.registry.bound? h).bind (·.parent) = some ⟨id, name⟩
  /-- What an ensemble hangs in is alive and older. -/
  parents : ∀ id e link, c.registry.get? id = some e → e.parent = some link →
    ∃ p, c.registry.get? link.ensemble = some p ∧ link.ensemble.number < id.number
  /-- The way up from an ensemble ends at a top-level one. -/
  trails : ∀ id e, c.registry.get? id = some e → ∃ top names,
    c.registry.trail id = some (top, names) ∧ top.parent = none ∧
      c.registry.get? top.id = some top
  /-- The command of a nested ensemble has the private name of the part it is. -/
  privately : ∀ id e link, c.registry.get? id = some e → e.parent = some link →
    ∃ a, c.commands.get? e.command = some a ∧
      a.name = root ++ "::subensembles::" ++ link.ensemble.number.repr ++ "::" ++ link.part
  /-- The procedure of a part has the name of the part, the usage that its arguments make, and
  the namespace of the ensemble. -/
  procedures : ∀ id e name p q, c.registry.get? id = some e → e.parts.find? name = some p →
    p.handler = .procedure q →
      q.name = name ∧ q.home = root ++ "::" ++ id.number.repr ∧ e.home = q.home ∧
        p.usage = some q.signature.usage

namespace Catalog

variable {root : String} {c : Catalog}

theorem Wf.map_get?_iff (hw : c.Wf root) {name : String} {h : Handle} :
    (c.commands.get? h).map (·.name) = some name ↔
      ∃ a ∈ c.commands.entries, a.name = name ∧ a.handle = h := by
  simp only [Option.map_eq_some_iff, CommandTable.get?_eq_some_iff hw.commands, and_assoc]
  exact exists_congr fun a => and_congr_right fun _ => and_comm

/-- A part is what is found under its name. -/
theorem Wf.find?_part_iff (hw : c.Wf root) {id : EnsembleId} {name : String} {h : Handle} :
    ((c.registry.get? id).bind (·.parts.find? name)).map (·.handler) = some (.ensemble h) ↔
      ∃ e ∈ c.registry.ensembles, e.id = id ∧ e.Holds name h := by
  simp only [Option.map_eq_some_iff, Option.bind_eq_some_iff,
    Registry.get?_eq_some_iff hw.registry]
  constructor
  · rintro ⟨p, ⟨e, ⟨he, hid⟩, hp⟩, hh⟩
    obtain ⟨hpm, hn⟩ := PartTable.find?_mem hp
    refine ⟨e, he, hid, p.usage, PartTable.mem_contents.2 ⟨p, hpm, ?_⟩⟩
    rw [Part.content, hn, hh]
  · rintro ⟨e, he, hid, usage, hm⟩
    obtain ⟨p, hpm, hc⟩ := PartTable.mem_contents.1 hm
    refine ⟨p, ⟨e, ⟨he, hid⟩, ?_⟩, congrArg (·.2.2) hc⟩
    exact (PartTable.find?_eq_some_iff (hw.registry.sorted e he)).2 ⟨hpm, congrArg (·.1) hc⟩

theorem Wf.map_command_iff (hw : c.Wf root) {id : EnsembleId} {h : Handle} :
    (c.registry.get? id).map (·.command) = some h ↔
      ∃ e ∈ c.registry.ensembles, e.command = h ∧ e.id = id := by
  simp only [Option.map_eq_some_iff, Registry.get?_eq_some_iff hw.registry, and_assoc]
  exact exists_congr fun e => and_congr_right fun _ => and_comm

theorem Wf.consistent (hw : c.Wf root) : c.Consistent root where
  keys := ⟨List.pairwise_map.2 hw.commands.keys, List.pairwise_map.2 hw.commands.handles,
    List.pairwise_map.2 hw.registry.keys, List.pairwise_map.2 hw.registry.ids_ne⟩
  found a ha := (CommandTable.find?_eq_some_iff hw.commands).2 ⟨ha, rfl⟩
  alive e he := by
    obtain ⟨a, ha, hh, -⟩ := hw.owned e he
    refine ⟨(Registry.get?_eq_some_iff hw.registry).2 ⟨he, rfl⟩,
      (Registry.bound?_eq_some_iff hw.registry).2 ⟨he, rfl⟩, ?_⟩
    rw [(CommandTable.get?_eq_some_iff hw.commands).2 ⟨ha, hh⟩]
    rfl
  handles name h :=
    (CommandTable.handleOf?_eq_some_iff hw.commands).trans hw.map_get?_iff.symm
  bound h id := hw.registry.idOf?_eq_some_iff.trans hw.map_command_iff.symm
  dispatchers h a hg := by
    obtain ⟨ha, rfl⟩ := (CommandTable.get?_eq_some_iff hw.commands).1 hg
    constructor
    · intro ht
      obtain ⟨e, he, hc⟩ := hw.bound a ha ht
      exact ⟨e, (Registry.bound?_eq_some_iff hw.registry).2 ⟨he, hc⟩, hc,
        (Registry.get?_eq_some_iff hw.registry).2 ⟨he, rfl⟩⟩
    · rintro ⟨e, -, hc, hid⟩
      have he := ((Registry.get?_eq_some_iff hw.registry).1 hid).1
      exact (hw.owner he ha hc).1
  parts id name h := by
    rw [hw.find?_part_iff]
    simp only [Option.bind_eq_some_iff, Registry.bound?_eq_some_iff hw.registry]
    constructor
    · rintro ⟨p, hp, rfl, hh⟩
      obtain ⟨e, he, hc, hl⟩ := hw.registry.held p hp name h hh
      exact ⟨e, ⟨he, hc⟩, hl⟩
    · rintro ⟨e, ⟨he, rfl⟩, hl⟩
      obtain ⟨p, hp, hid, -, hh⟩ := hw.registry.hangs e he _ hl
      exact ⟨p, hp, hid, hh⟩
  parents id e link hg hl := by
    obtain ⟨he, rfl⟩ := (Registry.get?_eq_some_iff hw.registry).1 hg
    obtain ⟨p, hp, hid, hlt, -⟩ := hw.registry.hangs e he link hl
    exact ⟨p, (Registry.get?_eq_some_iff hw.registry).2 ⟨hp, hid⟩, hid ▸ hlt⟩
  trails id e hg := by
    obtain ⟨he, rfl⟩ := (Registry.get?_eq_some_iff hw.registry).1 hg
    obtain ⟨top, names, ht, htop, hp⟩ := Registry.trail_spec hw.registry he
    exact ⟨top, names, ht, htop, (Registry.get?_eq_some_iff hw.registry).2 ⟨hp.top_mem, rfl⟩⟩
  privately id e link hg hl := by
    obtain ⟨he, rfl⟩ := (Registry.get?_eq_some_iff hw.registry).1 hg
    obtain ⟨a, ha, hh, -, hn⟩ := hw.owned e he
    refine ⟨a, (CommandTable.get?_eq_some_iff hw.commands).2 ⟨ha, hh⟩, ?_⟩
    rw [hn link hl, Registry.privateName, hw.root]
  procedures id e name p q hg hp hh := by
    obtain ⟨he, rfl⟩ := (Registry.get?_eq_some_iff hw.registry).1 hg
    obtain ⟨hpm, rfl⟩ := PartTable.find?_mem hp
    have hm : (p.name, p.usage, Handler.procedure q) ∈ e.parts.contents :=
      PartTable.mem_contents.2 ⟨p, hpm, by rw [Part.content, hh]⟩
    obtain ⟨hn, hhome, hu⟩ := hw.registry.procedures e he _ _ q hm
    refine ⟨hn, ?_, hhome.symm, hu⟩
    rw [hhome, hw.registry.home e he, homeOf, hw.root]

end Catalog

namespace Interpreter

/-- The catalogue of a reachable interpreter is consistent. -/
theorem reachable_consistent {root : String} {i : Interpreter} (hi : Reachable root i) :
    i.state.catalog.Consistent root :=
  hi.wf.consistent

/-- It is after an ensemble is made, another one in it with a third one below, and a command that
takes the name of the second one's command. The name leads to the new command; the old command, the
part, and both ensembles below it are gone with their commands, and no map has a trace of them. -/
theorem reachable_consistent_replaced :
    let i := (((new "::r" 4).create "a").2.create "a b").2.create "a b c" |>.2
    let c := (i.register "::r::subensembles::1::b" ⟨none, Program.echo⟩).2.state.catalog
    i.find? "::r::subensembles::1::b" = some ⟨9⟩ ∧ i.isEnsemble ⟨9⟩ = true ∧
      c.Consistent "::r" ∧
      c.commands.handleOf? "::r::subensembles::1::b" = some ⟨11⟩ ∧
      (c.commands.get? ⟨11⟩).map (·.target.natives.length) = some 1 ∧
      c.isEnsemble ⟨11⟩ = false ∧
      (c.commands.get? ⟨9⟩).isNone = true ∧ c.isEnsemble ⟨9⟩ = false ∧
      c.commands.handleOf? "::r::subensembles::2::c" = none ∧
      (c.commands.get? ⟨10⟩).isNone = true ∧
      c.registry.byCommand = [(⟨8⟩, ⟨1⟩)] ∧
      c.registry.ensembles.map (fun e => (e.id, e.parts.toList.length)) = [(⟨1⟩, 0)] := by
  intro i c
  have hi : Reachable "::r" i := .create _ (.create _ (.create _ (.new 4)))
  have hc : c.Consistent "::r" := reachable_consistent (.register _ _ hi)
  exact ⟨by decide +kernel, by decide +kernel, hc, by decide +kernel, by decide +kernel,
    by decide +kernel, by decide +kernel, by decide +kernel, by decide +kernel, by decide +kernel,
    by decide +kernel, by decide +kernel⟩

end Interpreter

end Ensembles
