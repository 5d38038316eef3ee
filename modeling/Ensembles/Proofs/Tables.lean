import Ensembles.Proofs.Abbreviations
import Ensembles.Proofs.Provenance
import Ensembles.Proofs.Reachable

/-!
# The tables of ensembles

An ensemble is made with the empty table, and operations on the catalogue change tables by
insertions and removals only. So the table of every ensemble of a reachable interpreter is well
formed (`Interpreter.Reachable.tables`): its names ascend, and its abbreviations tell its parts
apart. No link between ensembles matters for this.
-/

namespace Ensembles

/-- The table of each ensemble is well formed. -/
def Registry.Tabled (r : Registry) : Prop := ∀ e ∈ r.ensembles, e.parts.Wf

theorem Registry.Tabled.bound? {r : Registry} (ht : r.Tabled) {h : Handle} {e : Ensemble}
    (he : r.bound? h = some e) : e.parts.Wf :=
  ht e (Registry.mem_of_bound? he)

/-- Whatever is inserted or removed, a table stays well formed. -/
theorem PartTable.closed_wf : Closed (fun _ => True) Wf where
  empty := wf_empty
  insert ht _ hi := ht.insert? hi
  erase name ht := ht.erase name

namespace Catalog

variable {c : Catalog}

theorem made_of_tabled (ht : c.registry.Tabled) : c.Made (fun _ => True) PartTable.Wf :=
  ⟨fun _ _ => trivial, ht⟩

theorem preserved_tabled : Preserved fun c => c.registry.Tabled where
  put name _ ht := ((made_of_tabled ht).put PartTable.closed_wf name trivial).tables
  delete name ht := ((made_of_tabled ht).delete PartTable.closed_wf name).tables
  locateTop name ht := ((made_of_tabled ht).locateTop PartTable.closed_wf trivial name).tables
  locateNested parent name ht :=
    ((made_of_tabled ht).locateNested PartTable.closed_wf trivial (fun _ => trivial) parent
      name).tables
  addNative path name usage _ ht :=
    ((made_of_tabled ht).addNative PartTable.closed_wf path name usage trivial).tables
  addProcedure hc ht :=
    ((made_of_tabled ht).addProcedure PartTable.closed_wf hc fun _ => trivial).tables

end Catalog

/-- In a reachable interpreter every ensemble has a well-formed table. -/
theorem Interpreter.Reachable.tables {root : String} {i : Interpreter} (hi : Reachable root i) :
    i.state.catalog.registry.Tabled :=
  hi.catalog Catalog.preserved_tabled nofun

end Ensembles
