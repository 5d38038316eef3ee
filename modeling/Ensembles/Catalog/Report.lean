import Ensembles.Catalog.Usage

/-!
# Reports on ensembles

A report lists the parts of an ensemble and contains the reports on the ensembles that
hang in it. `Catalog.reports` reports on all top-level ensembles.
-/

namespace Ensembles

namespace Catalog

/-- The report on the ensemble bound to `h`; the ensembles to search are given oldest
first. There is none if an ensemble that hangs in it is missing. -/
def reportFrom (c : Catalog) : List Ensemble → Handle → Option EnsembleReport
  | [], _ => none
  | e :: younger, h =>
    if e.command = h then do
      let parts ← e.parts.toList.mapM fun p => do
        let kind ← match p.handler with
          | .native _ => some .native
          | .procedure _ => some .procedure
          | .ensemble child => (reportFrom c younger child).map .ensemble
        return .mk p.name p.minChars (c.usageLine e.id p) kind
      return .mk (c.path e.id) e.id e.home parts
    else reportFrom c younger h

/-- The reports on all top-level ensembles, the oldest first. -/
def reports (c : Catalog) : List EnsembleReport :=
  c.registry.topLevel.filterMap fun e => c.reportFrom c.registry.ensembles.reverse e.command

end Catalog

end Ensembles
