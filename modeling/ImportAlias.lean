import ImportAlias.Main
import ImportAlias.Proofs.OnePass
import ImportAlias.Proofs.Rereading
import ImportAlias.Proofs.Editing
import ImportAlias.Proofs.SecondEdit
import ImportAlias.Proofs.LeftmostCut
import ImportAlias.Proofs.Header
import ImportAlias.Proofs.Locality
import ImportAlias.Proofs.Balance
import ImportAlias.Proofs.Conservation
import ImportAlias.Proofs.Contents
import ImportAlias.Proofs.Components
import ImportAlias.Proofs.Sequence
import ImportAlias.Proofs.Walking
import ImportAlias.Proofs.Scanning
import ImportAlias.Proofs.Convergence
import ImportAlias.Proofs.Independence
import ImportAlias.Proofs.Locations
import ImportAlias.Proofs.Telling
import ImportAlias.Proofs.Effect
import ImportAlias.Proofs.Descent
import ImportAlias.Proofs.FlatScan
import ImportAlias.Proofs.AnyOrder
import ImportAlias.Proofs.Lines
import ImportAlias.Proofs.LimitedOutput
import ImportAlias.Proofs.AddedOption
import ImportAlias.Proofs.Retelling
import ImportAlias.Proofs.Exclusion
import ImportAlias.Proofs.Relocation
import ImportAlias.Proofs.Requests
import ImportAlias.Proofs.ExitStatus
import ImportAlias.Proofs.ThroughLinks
import ImportAlias.Proofs.Probe
import ImportAlias.Proofs.AllOrNothing
import ImportAlias.Proofs.Bookkeeping
import ImportAlias.Proofs.Spellings
import ImportAlias.Proofs.Document
import ImportAlias.Proofs.ParentSteps
import ImportAlias.Proofs.Respelling
import ImportAlias.Proofs.Decoration
