import Ensembles.Main
import Ensembles.Native.Stock
import Ensembles.Proofs.Quoting
import Ensembles.Proofs.WrittenCommand
import Ensembles.Proofs.LocalAtoms
import Ensembles.Proofs.LocalWords
import Ensembles.Proofs.LocalCommands
import Ensembles.Proofs.JoinedTexts
import Ensembles.Proofs.SourceRanges
import Ensembles.Proofs.ConcatenatedLists
import Ensembles.Proofs.EmbeddedLists
import Ensembles.Proofs.NormalWords
import Ensembles.Proofs.Progress
import Ensembles.Proofs.Search
import Ensembles.Proofs.SortedParts
import Ensembles.Proofs.Forest
import Ensembles.Proofs.ForestChanges
import Ensembles.Proofs.CatalogChanges
import Ensembles.Proofs.CatalogGrowth
import Ensembles.Proofs.Reachable
import Ensembles.Proofs.Consistency
import Ensembles.Proofs.Atomicity
import Ensembles.Proofs.Abbreviations
import Ensembles.Proofs.CanonicalTables
import Ensembles.Proofs.Resolving
import Ensembles.Proofs.Provenance
import Ensembles.Proofs.Tables
import Ensembles.Proofs.SpelledOut
import Ensembles.Proofs.ShownPaths
import Ensembles.Proofs.OwnedNatives
import Ensembles.Proofs.Release
import Ensembles.Proofs.Work
import Ensembles.Proofs.Machine
import Ensembles.Proofs.Along
import Ensembles.Proofs.CommandByCommand
import Ensembles.Proofs.Depth
import Ensembles.Proofs.DeclaredDepth
import Ensembles.Proofs.DeclaredChains
import Ensembles.Proofs.LettingOut
import Ensembles.Proofs.Likeness
import Ensembles.Proofs.Limit
import Ensembles.Proofs.InlineDeclarations
import Ensembles.Proofs.Counting
import Ensembles.Proofs.Balance
import Ensembles.Proofs.Isolation
import Ensembles.Proofs.Additive
import Ensembles.Proofs.Reports
import Ensembles.Proofs.Handles
import Ensembles.Proofs.FullNames
import Ensembles.Proofs.Destruction
import Ensembles.Proofs.NestedCalls
import Ensembles.Proofs.CatchAll
import Ensembles.Proofs.Lookups
import Ensembles.Proofs.Listings
import Ensembles.Proofs.Signatures
import Ensembles.Proofs.LastingPaths
import Ensembles.Proofs.Creation
import Ensembles.Proofs.ErrorChains
