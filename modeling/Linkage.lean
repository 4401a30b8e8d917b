import Linkage.Config.Load
import Linkage.Diagnostic.Record
import Linkage.Diagnostic.Terminal
import Linkage.Link.Run
import Linkage.Stored.Decoding
import Linkage.Stored.Encoding
import Linkage.Proofs.Sequence
import Linkage.Proofs.TyTree
import Linkage.Proofs.Denotation
import Linkage.Proofs.TyGrowth
import Linkage.Proofs.TySubstitution
import Linkage.Proofs.Placed
import Linkage.Proofs.Uprooting
import Linkage.Proofs.Sweeping
import Linkage.Proofs.Planting
import Linkage.Proofs.Passes
import Linkage.Proofs.Phases
import Linkage.Proofs.Refinement
import Linkage.Proofs.Catalogues
import Linkage.Proofs.FreshNames
import Linkage.Proofs.Verdicts
import Linkage.Proofs.Renames
import Linkage.Proofs.Resolution
import Linkage.Proofs.Mentions
import Linkage.Proofs.Binding
import Linkage.Proofs.Interfaces
import Linkage.Proofs.SymbolUses
import Linkage.Proofs.Captures
import Linkage.Proofs.Uniqueness
import Linkage.Proofs.Acceptance
import Linkage.Proofs.Linkable
import Linkage.Proofs.Remnants
import Linkage.Proofs.Relinking
import Linkage.Proofs.Separation
import Linkage.Proofs.TyWords
import Linkage.Proofs.Outcomes
import Linkage.Proofs.Judgements
import Linkage.Proofs.RollCall
import Linkage.Proofs.Counters
import Linkage.Proofs.Docket
import Linkage.Proofs.Readings
import Linkage.Proofs.Totality
import Linkage.Proofs.Clearing
import Linkage.Proofs.Rejections
import Linkage.Proofs.Reports
import Linkage.Proofs.Layouts
import Linkage.Proofs.Tallies
import Linkage.Proofs.Sharing
import Linkage.Proofs.Reorderings
import Linkage.Proofs.Counterparts
import Linkage.Proofs.Descents
import Linkage.Proofs.Cycles
import Linkage.Proofs.Endings
import Linkage.Proofs.JsonText
import Linkage.Proofs.Restoring
import Linkage.Proofs.TyTables
import Linkage.Proofs.Dumps
import Linkage.Proofs.Reaching
import Linkage.Proofs.Relabelling
import Linkage.Proofs.Merging
import Linkage.Proofs.TyImages
import Linkage.Proofs.Coherence
import Linkage.Proofs.Rewriting
import Linkage.Proofs.FirstFree
import Linkage.Proofs.Compatibility
import Linkage.Proofs.Rulings
import Linkage.Proofs.TyIdentity
import Linkage.Proofs.TextLines
import Linkage.Proofs.Positions
import Linkage.Proofs.Renderings
import Linkage.Proofs.Cutting
import Linkage.Proofs.Erasing
import Linkage.Proofs.Visiting
import Linkage.Proofs.Underlining
import Linkage.Proofs.Records
import Linkage.Proofs.Traversals
import Linkage.Proofs.Handles
import Linkage.Proofs.Grouping
